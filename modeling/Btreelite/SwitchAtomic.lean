import Btreelite.SwitchLocks

/-!
# When a switch of the journal mode is atomic

A switch that has its read transaction must come to its end: an error after that leaves the transaction
open, or the mode and the version apart.
-/

namespace Btreelite.Switch

open Prog

variable (a : Answers)

/-! ## The version -/

/-- What the write transaction leaves as it is, in a database that is not empty now. -/
structure Held (s s' : SwitchDb) : Prop where
  file : s'.file = s.file
  useWal : s'.useWal = s.useWal
  mode : s'.journalMode = s.journalMode
  nPage : s'.nPage ≠ 0

/-- Where the write transaction stands after `newDatabase`. -/
structure Fresh (s s' : SwitchDb) : Prop extends Held s s' where
  inTrans : s'.inTrans = s.inTrans
  header : s'.pPage1 = some (if s.file.size = 0 then ⟨(1, 1), s'.nPage⟩ else s.file.header)
  size : s.file.size ≠ 0 → s'.nPage = s.file.dbSize

/-- Page 1 has the version, in a write transaction. -/
structure Versioned (iVersion : ℕ) (s s' : SwitchDb) : Prop extends Held s s' where
  inTrans : s'.inTrans = .write
  header : s'.pPage1.map Header.version = some (iVersion, iVersion)

theorem newDatabase_wp {s : SwitchDb} (hp : s.pPage1 = some s.file.header)
    (hn : s.nPage = s.file.dbSize) :
    wp (newDatabase a) (fun _ s' => Fresh s s' ∧ (s.file.size = 0 → a.writeNew = none))
      (fun _ s' => s' = s ∧ s.file.size = 0 ∧ a.writeNew ≠ none) s := by
  have h0 : 0 < s.nPage ↔ s.file.size ≠ 0 := by
    rw [hn, Nat.pos_iff_ne_zero, Ne, DbFile.dbSize_eq_zero]
  simp only [newDatabase, wp_bind, wp_get]
  rw [wp_ite]
  refine ⟨fun h => ?_, fun h => ?_⟩
  · have hs := h0.1 h
    refine ⟨⟨⟨rfl, rfl, rfl, h.ne'⟩, rfl, ?_, fun _ => hn⟩, fun h => absurd h hs⟩
    rw [if_neg hs, hp]
  · have hs : s.file.size = 0 := by simpa using mt h0.2 h
    simp only [wp_bind, wp_ret, wp_modify]
    refine ⟨fun hw => ⟨⟨⟨rfl, rfl, rfl, Nat.one_ne_zero⟩, rfl, ?_, fun h => absurd hs h⟩, fun _ => hw⟩,
      fun e he => ⟨trivial, hs, by simp [he]⟩⟩
    rw [if_pos hs]

theorem beginAttempt_wp {s : SwitchDb} (hr : s.readOnly = false) (hp : s.pPage1 = some s.file.header)
    (hn : s.nPage = s.file.dbSize) :
    wp (beginAttempt a) (fun _ s' => Fresh s s' ∧ WriteBegins a s.file)
      (fun _ s' => s' = s ∧ ¬ WriteBegins a s.file) s := by
  simp only [beginAttempt, lockLoop, lockRound, beginWrite, wp_bind, wp_get, hp, reduceCtorEq, if_false, wp_pure,
    hr, Bool.false_eq_true, wp_ret]
  refine ⟨fun hb => (newDatabase_wp a hp hn).mono ?_ ?_, fun e he => ⟨trivial, ?_⟩⟩
  · exact fun _ s' h => ⟨h.1, hb, h.2⟩
  · exact fun e s' h => ⟨h.1, fun hw => h.2.2 (hw.2 h.2.1)⟩
  · exact fun hw => absurd hw.1 (by simp [he])

theorem correctNPage_wp {s s' : SwitchDb} (h : Fresh s s') :
    wp (correctNPage a)
      (fun _ s'' => (Held s s'' ∧ s''.inTrans = s'.inTrans ∧ s''.pPage1 ≠ none) ∧ Corrects a s.file)
      (fun _ s'' => s'' = s' ∧ ¬ Corrects a s.file) s' := by
  have hne : s'.nPage = (if s.file.size = 0 then ⟨(1, 1), s'.nPage⟩ else s.file.header).nPage ↔
      (s.file.size ≠ 0 → s.file.dbSize = s.file.nPage) := by
    by_cases h0 : s.file.size = 0
    · simp [h0]
    · simp [h0, h.size h0, DbFile.header_eq h0]
  simp only [correctNPage, wp_bind, wp_get, h.header]
  rw [wp_ite, hne]
  refine ⟨fun he => ⟨⟨h.toHeld, rfl, by simp [h.header]⟩, ?_⟩, fun he => ?_⟩
  · exact fun h0 hd => absurd (he h0) hd
  · simp only [wp_bind, wp_ret, wp_set]
    refine ⟨fun hw => ⟨⟨⟨h.file, h.useWal, h.mode, h.nPage⟩, trivial, by simp⟩, fun _ _ => hw⟩,
      fun e hw => ⟨trivial, fun hc => he fun h0 => ?_⟩⟩
    by_contra hd
    exact absurd (hc h0 hd) (by simp [hw])

theorem beginWriteTrans_wp {s : SwitchDb} (hi : s.inTrans = .read) (hr : s.readOnly = false)
    (hp : s.pPage1 = some s.file.header) (hn : s.nPage = s.file.dbSize) (iVersion : ℕ) :
    wp (do beginWriteTrans a; ret a.writeVersion; setVersionBytes iVersion)
      (fun _ s' => Versioned iVersion s s' ∧ VersionWrites a s.file)
      (fun _ s' => s'.inTrans ≠ .none ∧ ¬ VersionWrites a s.file) s := by
  simp only [beginWriteTrans, wp_bind, wp_get, hr, Bool.false_eq_true, if_false, wp_onError]
  refine (beginAttempt_wp a hr hp hn).mono ?_ ?_
  · rintro _ s₁ ⟨h₁, hb⟩
    simp only [wp_modify, wp_ret]
    have h₁' : Fresh { s with inTrans := .write } { s₁ with inTrans := .write } :=
      ⟨⟨h₁.file, h₁.useWal, h₁.mode, h₁.nPage⟩, rfl, h₁.header, h₁.size⟩
    refine (correctNPage_wp a h₁').mono ?_ ?_
    · rintro _ s₂ ⟨⟨h₂, hi₂, hp₂⟩, hc⟩
      refine ⟨fun hsv => ⟨fun hwv => ⟨⟨⟨h₂.file, h₂.useWal, h₂.mode, h₂.nPage⟩, hi₂, ?_⟩,
        hb, hc, hsv, hwv⟩, fun e he => ⟨by simp [hi₂], fun hw => absurd hw.2.2.2 (by simp [he])⟩⟩,
        fun e he => ⟨by simp [hi₂], fun hw => absurd hw.2.2.1 (by simp [he])⟩⟩
      obtain ⟨h, hh⟩ := Option.ne_none_iff_exists'.1 hp₂
      simp [hh]
    · rintro e s₂ ⟨rfl, hc⟩
      exact ⟨by simp, fun hw => hc hw.2.1⟩
  · rintro e s₁ ⟨rfl, hb⟩
    simp only [unlockBtreeIfUnused, wp_modify, hi]
    exact ⟨by simp [hi], fun hw => hb hw.1⟩

theorem writeVersion_wp {s : SwitchDb} {f : DbFile} (hf : s.file = f) (hi : s.inTrans = .read)
    (hp : s.pPage1 = some f.header) (hn : s.nPage = f.dbSize) (iVersion : ℕ) :
    wp (writeVersion a iVersion)
      (fun _ s' => f.header.version = (iVersion, iVersion) ∧ s' = s ∨
        f.header.version ≠ (iVersion, iVersion) ∧ Versioned iVersion s s' ∧
          s.readOnly = false ∧ VersionWrites a f)
      (fun _ s' => s'.inTrans ≠ .none ∧ f.header.version ≠ (iVersion, iVersion) ∧
        ¬ (s.readOnly = false ∧ VersionWrites a f)) s := by
  subst hf
  simp only [writeVersion, wp_bind, wp_get, hp, Option.map_some, Option.some.injEq]
  rw [wp_ite]
  refine ⟨fun hv => by simp [hv], fun hv => ?_⟩
  by_cases hr : s.readOnly = true
  · simp [beginWriteTrans, hr, hi, hv]
  have hr : s.readOnly = false := by simpa using hr
  refine (beginWriteTrans_wp a hi hr hp hn iVersion).mono ?_ ?_
  · exact fun _ s' h => .inr ⟨hv, h.1, hr, h.2⟩
  · exact fun e s' h => ⟨h.1, hv, fun hw => h.2 hw.2⟩

/-! ## The transaction of the switch -/

/-- What the locks and the commit leave of the log. -/
structure LogLeft (iVersion : ℕ) (s s' : SwitchDb) : Prop where
  log : s'.useWal = true ↔ LogOpens a a.lock s.file s.useWal (decide (iVersion = 1))
  mode : s.journalMode ≠ .wal → s'.useWal = false → s'.journalMode ≠ .wal

/-- How the transaction that writes the version can end. -/
inductive Outcome (iVersion : ℕ) (s s' : SwitchDb) : Prop
  | unlocked (locks : ¬ Locks a s.file s.useWal (decide (iVersion = 1)))
      (inTrans : s'.inTrans = .none) (file : s'.file = s.file) (left : LogLeft a iVersion s s')
  | stuck (locks : Locks a s.file s.useWal (decide (iVersion = 1)))
      (ends : ¬ Ends a s.file s.readOnly iVersion) (inTrans : s'.inTrans ≠ .none)
  | done (locks : Locks a s.file s.useWal (decide (iVersion = 1)))
      (ends : Ends a s.file s.readOnly iVersion) (inTrans : s'.inTrans = .none)
      (size : s'.file.size ≠ 0) (version : s'.file.version = (iVersion, iVersion))
      (left : LogLeft a iVersion s s')

variable {a} in
theorem Locked.begins {s s' : SwitchDb} (h : Locked a s s') :
    s'.readOnly = false ∧ VersionWrites a s.file ↔ Begins a s.file s.readOnly := by
  rw [Begins, ← and_assoc]
  refine and_congr_left fun _ => ?_
  rw [← Bool.not_eq_true, h.readOnly, not_or, Bool.not_eq_true, not_and, not_lt]

theorem DbFile.header_version {f : DbFile} {iVersion : ℕ} (h : iVersion ≠ 0) :
    f.header.version = (iVersion, iVersion) ↔ f.size ≠ 0 ∧ f.version = (iVersion, iVersion) := by
  by_cases h0 : f.size = 0
  · simp [header, h0, h.symm]
  · rw [header_eq h0, and_iff_right h0]

theorem commit_read_wp {s : SwitchDb} (hi : s.inTrans = .read) :
    wp (commitVersion a (.ok ())) (fun _ s' => s' = { s with inTrans := .none, pPage1 := none })
      (fun _ _ => False) s := by
  simp [commitVersion, sqlite3BtreeCommit, sqlite3BtreeCommitPhaseOne, sqlite3BtreeCommitPhaseTwo,
    commitWrite, btreeEndTransaction, unlockBtreeIfUnused, hi]

theorem DbFile.commit_commit (f : DbFile) (n : ℕ) (h : Option Header) :
    (f.commit n h).commit n h = f.commit n h := by
  cases h <;> rfl

theorem commit_write_wp {s : SwitchDb} (hi : s.inTrans = .write) :
    wp (commitVersion a (.ok ()))
      (fun _ s' => s' = { s with
        inTrans := .none, pPage1 := none, file := s.file.commit s.nPage s.pPage1 } ∧
          a.phaseOne = none ∧ a.phaseTwo = none)
      (fun _ s' => s'.inTrans ≠ .none ∧ ¬ (a.phaseOne = none ∧ a.phaseTwo = none)) s := by
  simp only [commitVersion, sqlite3BtreeCommit, sqlite3BtreeCommitPhaseOne,
    sqlite3BtreeCommitPhaseTwo, wp_bind, wp_get, hi, reduceCtorEq, if_false, if_true, wp_ret]
  refine ⟨fun h₁ => ?_, fun e he => ⟨by simp, fun h => by simp [he] at h⟩⟩
  have htwo (f : DbFile) (hf : f.commit s.nPage s.pPage1 = s.file.commit s.nPage s.pPage1) :
      wp (commitWrite a) (fun _ s' => wp btreeEndTransaction
        (fun _ s' => s' = { s with
          inTrans := .none, pPage1 := none, file := s.file.commit s.nPage s.pPage1 } ∧
            a.phaseOne = none ∧ a.phaseTwo = none)
        (fun _ s' => s'.inTrans ≠ .none ∧ ¬ (a.phaseOne = none ∧ a.phaseTwo = none)) s')
      (fun _ s' => s'.inTrans ≠ .none ∧ ¬ (a.phaseOne = none ∧ a.phaseTwo = none))
      { s with inTrans := .write, file := f } := by
    simp only [commitWrite, wp_bind, wp_get, if_true, wp_ret]
    refine ⟨fun h₂ => ?_, fun e he => ⟨by simp, fun h => by simp [he] at h⟩⟩
    simp only [commitFile, wp_modify, hf, btreeEndTransaction, unlockBtreeIfUnused, wp_bind, if_true]
    exact ⟨trivial, h₁, h₂⟩
  rw [wp_ite]
  refine ⟨fun _ => ?_, fun _ => ?_⟩
  · simp only [commitFile, wp_modify, hi, reduceCtorEq, if_false, wp_bind]
    exact htwo _ (DbFile.commit_commit _ _ _)
  · have hs : { s with inTrans := .write } = s := by rw [← hi]
    simp only [wp_pure, hi, reduceCtorEq, if_false, wp_bind]
    exact hs ▸ htwo s.file rfl

/-- The transaction found the version in page 1. -/
theorem commit_same_wp {s s₁ : SwitchDb} {iVersion : ℕ} {E : Rc → SwitchDb → Prop}
    (h : Locked a { s with noWal := decide (iVersion = 1) } s₁)
    (hver : s.file.size ≠ 0 ∧ s.file.version = (iVersion, iVersion)) :
    wp (commitVersion a (.ok ())) (fun _ => Outcome a iVersion s) E
      { s₁ with inTrans := .read, noWal := false } := by
  have hfile : s₁.file = s.file := h.file
  refine (commit_read_wp a (s := { s₁ with inTrans := .read, noWal := false }) rfl).mono ?_
    fun _ _ h => h.elim
  intro _ s₃ h₃
  have hout : Outcome a iVersion s { s₁ with inTrans := .none, noWal := false, pPage1 := none } :=
    .done h.locks (.inl hver) rfl (hfile ▸ hver.1) (hfile ▸ hver.2) ⟨h.log, h.mode⟩
  exact h₃ ▸ hout

/-- The transaction has written the version to page 1. -/
theorem commit_written_wp {s s₁ s₂ : SwitchDb} {iVersion : ℕ}
    (h : Locked a { s with noWal := decide (iVersion = 1) } s₁)
    (hver : ¬ (s.file.size ≠ 0 ∧ s.file.version = (iVersion, iVersion)))
    (h₂ : Versioned iVersion { s₁ with inTrans := .read } s₂)
    (hb : Begins a s.file s.readOnly) :
    wp (commitVersion a (.ok ())) (fun _ => Outcome a iVersion s)
      (fun _ s' => Locks a s.file s.useWal (decide (iVersion = 1)) ∧
        ¬ Ends a s.file s.readOnly iVersion ∧ s'.inTrans ≠ .none)
      { s₂ with noWal := false } := by
  refine (commit_write_wp a (s := { s₂ with noWal := false }) h₂.inTrans).mono ?_ ?_
  · rintro _ s₃ ⟨h₃, hph⟩
    obtain ⟨hd, hhd, hnew⟩ := Option.map_eq_some_iff.1 h₂.header
    have hlog := h.log
    have hmode := h.mode
    rw [← show s₂.useWal = s₁.useWal from h₂.useWal] at hlog hmode
    rw [← show s₂.journalMode = s₁.journalMode from h₂.mode] at hmode
    have hfile : s₃.file = ⟨s₂.nPage, hd.version, hd.nPage, true⟩ := by rw [h₃, hhd]; rfl
    refine .done h.locks (.inr ⟨hb, hph⟩) (by rw [h₃]) ?_ ?_ ⟨?_, ?_⟩
    · rw [hfile]; exact h₂.nPage
    · rw [hfile]; exact hnew
    · rw [h₃]; exact hlog
    · rw [h₃]; exact hmode
  · rintro e s₃ ⟨hi', hph⟩
    exact ⟨h.locks, fun he => he.elim hver fun he => hph he.2, hi'⟩

/-- The transaction of the switch, with its commit. -/
theorem transaction_wp {s : SwitchDb} (hi : s.inTrans = .none) (hp : s.pPage1 = none)
    {iVersion : ℕ} (hv : iVersion ≠ 0) :
    wp (do let rc ← sqlite3BtreeSetVersion a iVersion; commitVersion a rc)
      (fun _ => Outcome a iVersion s)
      (fun _ s' => Locks a s.file s.useWal (decide (iVersion = 1)) ∧
        ¬ Ends a s.file s.readOnly iVersion ∧ s'.inTrans ≠ .none) s := by
  simp only [sqlite3BtreeSetVersion, beginReadTrans, wp_bind, wp_modify, wp_attempt, wp_onError,
    wp_pure]
  refine (lockLoop_wp a (s := { s with noWal := decide (iVersion = 1) }) hp).mono ?_ ?_
  · intro _ s₁ h
    have hbegins : s₁.readOnly = false ∧ VersionWrites a s.file ↔ Begins a s.file s.readOnly :=
      h.begins
    have hw := writeVersion_wp a (s := { s₁ with inTrans := .read }) h.file rfl h.pPage1 h.nPage iVersion
    simp only [Ne, DbFile.header_version hv, hbegins] at hw
    refine hw.mono ?_ ?_
    · rintro _ s₂ (⟨hver, rfl⟩ | ⟨hver, h₂, hb⟩)
      · have hc {E : Rc → SwitchDb → Prop} := commit_same_wp a (E := E) h hver
        exact hc
      · exact commit_written_wp a h hver h₂ hb
    · rintro e s₂ ⟨hi', hver, hb⟩
      exact .stuck h.locks (fun he => he.elim hver fun he => hb he.1) hi'
  · intro e s₁ h
    have hi₁ : s₁.inTrans = .none := h.inTrans.trans hi
    simp only [unlockBtreeIfUnused, wp_modify, hi₁, if_true, commitVersion, wp_pure]
    exact .unlocked h.locks rfl h.file ⟨h.log, h.mode⟩

/-! ## The modes -/

theorem sqlite3PagerCloseWal_wp (s : SwitchDb) :
    wp (sqlite3PagerCloseWal a)
      (fun _ s' => s' = { s with useWal := false } ∧ Closes a s.useWal)
      (fun _ s' => (∃ u, s' = { s with useWal := u }) ∧ ¬ Closes a s.useWal) s := by
  have hclose (s : SwitchDb) (hu : s.useWal = true) :
      wp (closeOpened a)
        (fun _ s' => s' = { s with useWal := false } ∧ a.closeExclusive = none ∧ a.walClose = none)
        (fun _ s' => (∃ u, s' = { s with useWal := u }) ∧
          ¬ (a.closeExclusive = none ∧ a.walClose = none)) s := by
    simp only [closeOpened, wp_bind, wp_get, hu, if_true, wp_ret, wp_modify]
    refine ⟨fun hx => ⟨fun hw => ⟨trivial, hx, hw⟩, fun e he => ⟨⟨false, rfl⟩, ?_⟩⟩,
      fun e he => ⟨⟨true, by rw [← hu]⟩, ?_⟩⟩
    · exact fun h => by simp [he] at h
    · exact fun h => by simp [he] at h
  simp only [sqlite3PagerCloseWal, openForClose, wp_bind, wp_get]
  rw [wp_ite]
  refine ⟨fun hu => ?_, fun hu => ?_⟩
  · simp only [wp_pure, Closes, hu, if_true]
    exact hclose s hu
  have hu : s.useWal = false := by simpa using hu
  simp only [wp_bind, wp_ret, Closes, hu, Bool.false_eq_true, if_false]
  refine ⟨fun hl => ⟨fun hx => ?_, fun e he => ⟨⟨false, by rw [← hu]⟩, ?_⟩⟩,
    fun e he => ⟨⟨false, by rw [← hu]⟩, ?_⟩⟩
  · rw [wp_ite]
    refine ⟨fun hexists => ?_, fun hexists => ?_⟩
    · rw [wp_pagerOpenWal]
      refine ⟨fun ho => ?_, fun e he => ⟨⟨false, by rw [← hu]⟩, ?_⟩⟩
      · refine (hclose { s with useWal := true } rfl).mono ?_ ?_
        · exact fun _ s' h => ⟨h.1, hl, hx, fun _ => ⟨ho, h.2⟩⟩
        · exact fun e s' h => ⟨h.1, fun hc => h.2 (hc.2.2 hexists).2⟩
      · exact fun hc => absurd (hc.2.2 hexists).1 (by simp [he])
    · simp only [wp_pure, closeOpened, wp_bind, wp_get, hu, Bool.false_eq_true, if_false]
      exact ⟨by rw [← hu], hl, hx, fun h => absurd h hexists⟩
  · exact fun hc => absurd hc.2.1 (by simp [he])
  · exact fun hc => absurd hc.1 (by simp [he])

/-- The new mode can be entered. -/
def Enters (useWal : Prop) (eMode : JournalMode) : Prop :=
  eMode = .wal → useWal ∨ a.walSupported = true ∧ a.openWal = none

theorem enterMode_wp (eMode : JournalMode) (s : SwitchDb) :
    wp (enterMode a eMode)
      (fun _ s' => s'.inTrans = s.inTrans ∧ s'.file = s.file ∧ s'.journalMode = eMode ∧
        Enters a (s.useWal = true) eMode)
      (fun _ s' => s' = s ∧ eMode = .wal ∧ s.useWal = false ∧ ¬ Enters a (s.useWal = true) eMode)
      s := by
  unfold enterMode
  rw [wp_ite]
  refine ⟨fun hm => ?_, fun hm => ⟨rfl, rfl, rfl, fun h => absurd h hm⟩⟩
  subst hm
  rw [wp_bind]
  refine (sqlite3PagerOpenWal_wp a a.openWal s).mono ?_ ?_
  · rintro isOpen s₁ ⟨-, h⟩
    simp only [sqlite3PagerSetJournalMode, wp_modify]
    split_ifs at h with hu
    · subst h
      exact ⟨rfl, rfl, trivial, fun _ => .inl hu⟩
    · obtain ⟨hsup, ho, rfl⟩ := h
      exact ⟨rfl, rfl, trivial, fun _ => .inr ⟨hsup, ho⟩⟩
  · rintro e s₁ ⟨rfl, hu, ho⟩
    exact ⟨rfl, rfl, hu, fun h => (h rfl).elim (by simp [hu]) ho⟩

section

variable (s : SwitchDb) (eMode : JournalMode)

/-- The old mode can be left. -/
def Leaves : Prop := s.journalMode = .wal → Closes a s.useWal

/-- Whether the log is open when the old mode is left. -/
def SwitchDb.keepsLog : Bool := s.useWal && decide (s.journalMode ≠ .wal)

/-- The read transaction of the switch begins. -/
def SwitchLocks : Prop := Locks a s.file s.keepsLog (decide (versionOf eMode = 1))

/-- The new mode can be entered after the transaction. -/
def SwitchEnters : Prop :=
  Enters a (LogOpens a a.lock s.file s.keepsLog (decide (versionOf eMode = 1))) eMode

/-- When a switch to the mode is atomic. The mode is the one of the pager, and the version is too; or
there is a transaction. Otherwise, a log that cannot be closed and a lock that cannot be taken leave
the version that is there, which is then the one of the mode that is left; and when the lock is taken,
every call after it returns no error. -/
def Meets : Prop :=
  (eMode = s.journalMode → s.file.Agrees eMode) ∧
  (eMode ≠ s.journalMode → s.inTrans = .none →
    (¬ Leaves a s → s.file.Agrees .wal) ∧
    (Leaves a s →
      (SwitchLocks a s eMode →
        Ends a s.file s.readOnly (versionOf eMode) ∧ SwitchEnters a s eMode) ∧
      (¬ SwitchLocks a s eMode → SwitchEnters a s eMode → s.file.Agrees eMode) ∧
      (¬ SwitchLocks a s eMode → ¬ SwitchEnters a s eMode → s.file.Agrees .off)))

end

theorem DbFile.agrees_off {f : DbFile} {eMode : JournalMode} (h : eMode ≠ .wal) :
    f.Agrees eMode ↔ f.Agrees .off := by
  simp [Agrees, versionOf, h]

theorem versionOf_ne_zero (eMode : JournalMode) : versionOf eMode ≠ 0 := by
  unfold versionOf
  split_ifs <;> decide

/-- A mode without a log goes with another version than the one of a log. -/
theorem DbFile.not_agrees {f : DbFile} {eMode : JournalMode} (h0 : f.size ≠ 0)
    (hv : f.version = (2, 2)) (h : eMode ≠ .wal) : ¬ f.Agrees eMode := by
  simp [Agrees, versionOf, h0, h, hv]

/-- The transaction is as before the switch, and the mode and the version agree. -/
def Agreed (s : SwitchDb) : Prop := s.inTrans = .none ∧ s.file.Agrees s.journalMode

/-- What `Meets` says of a switch from the state in which it begins its transaction. -/
def Completes (s : SwitchDb) (eMode : JournalMode) (locks enters : Prop) : Prop :=
  (locks → Ends a s.file s.readOnly (versionOf eMode) ∧ enters) ∧
    (¬ locks → enters → s.file.Agrees eMode) ∧ (¬ locks → ¬ enters → s.file.Agrees .off)

theorem enterMode_outcome_wp {s s₁ : SwitchDb} {eMode : JournalMode}
    (hmode : eMode = .wal → s.journalMode ≠ .wal) (h : Outcome a (versionOf eMode) s s₁) :
    wp (enterMode a eMode)
      (fun _ s' => Agreed s' ↔ Completes a s eMode
        (Locks a s.file s.useWal (decide (versionOf eMode = 1)))
        (Enters a (LogOpens a a.lock s.file s.useWal (decide (versionOf eMode = 1))) eMode))
      (fun _ s' => Agreed s' ↔ Completes a s eMode
        (Locks a s.file s.useWal (decide (versionOf eMode = 1)))
        (Enters a (LogOpens a a.lock s.file s.useWal (decide (versionOf eMode = 1))) eMode)) s₁ := by
  have hw := enterMode_wp a eMode s₁
  cases h with
  | unlocked locks inTrans file left =>
    rw [left.log] at hw
    refine hw.mono ?_ ?_
    · rintro _ s' ⟨hi, hf, hm, he⟩
      rw [Agreed, hi, hf, hm, file, inTrans]
      simp [Completes, locks, he]
    · rintro e s' ⟨rfl, hm, hu, he⟩
      have hoff := DbFile.agrees_off (f := s.file) (left.mode (hmode hm) hu)
      rw [Agreed, inTrans, file, hoff]
      simp [Completes, locks, he]
  | stuck locks ends inTrans =>
    refine hw.mono ?_ ?_
    · rintro _ s' ⟨hi, -⟩
      simp [Agreed, Completes, hi, inTrans, locks, ends]
    · rintro e s' ⟨rfl, -⟩
      simp [Agreed, Completes, inTrans, locks, ends]
  | done locks ends inTrans size version left =>
    rw [left.log] at hw
    refine hw.mono ?_ ?_
    · rintro _ s' ⟨hi, hf, hm, he⟩
      rw [Agreed, hi, hf, hm, inTrans]
      simp [Completes, locks, ends, he, DbFile.Agrees, size, version]
    · rintro e s' ⟨rfl, hm, hu, he⟩
      have hver : s'.file.version = (2, 2) := by rw [version, hm]; rfl
      have hn := DbFile.not_agrees size hver (left.mode (hmode hm) hu)
      simp [Agreed, Completes, locks, he, hn]

theorem leaveMode_wp {s : SwitchDb} {eMode : JournalMode} (hne : eMode ≠ s.journalMode) :
    wp (leaveMode a s.journalMode eMode)
      (fun _ s' => Leaves a s ∧ ((s'.inTrans = s.inTrans ∧ s'.pPage1 = s.pPage1) ∧
        s'.file = s.file ∧ s'.readOnly = s.readOnly ∧ s'.useWal = s.keepsLog ∧
          (eMode = .wal → s'.journalMode ≠ .wal)))
      (fun _ s' => ¬ Leaves a s ∧ s.journalMode = .wal ∧ ∃ u, s' = { s with useWal := u }) s := by
  unfold leaveMode
  rw [wp_ite]
  refine ⟨fun hold => ?_, fun hold => ?_⟩
  · refine (sqlite3PagerCloseWal_wp a s).mono ?_ ?_
    · rintro _ s' ⟨rfl, hc⟩
      exact ⟨fun _ => hc, ⟨rfl, rfl⟩, rfl, rfl, by simp [SwitchDb.keepsLog, hold],
        fun hm => absurd (hm.trans hold.symm) hne⟩
    · rintro e s' ⟨hu, hc⟩
      exact ⟨fun hl => hc (hl hold), hold, hu⟩
  · have hl : Leaves a s := fun h => absurd h hold
    have hk : s.useWal = s.keepsLog := by simp [SwitchDb.keepsLog, hold]
    rw [wp_ite]
    refine ⟨fun _ => ?_, fun _ => ?_⟩
    · exact ⟨hl, ⟨rfl, rfl⟩, rfl, rfl, hk, fun _ => nofun⟩
    · exact ⟨hl, ⟨rfl, rfl⟩, rfl, rfl, hk, fun _ => hold⟩

/-- A switch ends as it should when the environment lets it. -/
theorem switchMode_wp {s : SwitchDb} {eMode : JournalMode} (hne : eMode ≠ s.journalMode)
    (hi : s.inTrans = .none) (hp : s.pPage1 = none) :
    wp (switchMode a s.journalMode eMode) (fun _ s' => Agreed s' ↔ Meets a s eMode)
      (fun _ s' => Agreed s' ↔ Meets a s eMode) s := by
  have hmeets : Meets a s eMode ↔ (¬ Leaves a s → s.file.Agrees .wal) ∧ (Leaves a s →
      Completes a s eMode (SwitchLocks a s eMode) (SwitchEnters a s eMode)) := by
    simp [Meets, Completes, hne, hi]
  rw [hmeets]
  simp only [switchMode, wp_bind]
  refine (leaveMode_wp a hne).mono ?_ ?_
  · rintro _ s₁ ⟨hl, ⟨hi₁, hp₁⟩, hf, hr, hu, hm⟩
    simp only [hl, not_true_eq_false, false_imp_iff, true_imp_iff, true_and]
    have ht := transaction_wp a (hi₁.trans hi) (hp₁.trans hp) (versionOf_ne_zero eMode)
    rw [wp_bind] at ht
    have henter (s₂ : SwitchDb) (h₂ : Outcome a (versionOf eMode) s₁ s₂) :=
      enterMode_outcome_wp a hm h₂
    simp only [Completes, hf, hr, hu] at ht henter ⊢
    have hstuck (s₂ : SwitchDb) (h₂ : Locks a s.file s.keepsLog (decide (versionOf eMode = 1)) ∧
        ¬ Ends a s.file s.readOnly (versionOf eMode) ∧ s₂.inTrans ≠ .none) :
        Agreed s₂ ↔ (SwitchLocks a s eMode →
            Ends a s.file s.readOnly (versionOf eMode) ∧ SwitchEnters a s eMode) ∧
          (¬ SwitchLocks a s eMode → SwitchEnters a s eMode → s.file.Agrees eMode) ∧
          (¬ SwitchLocks a s eMode → ¬ SwitchEnters a s eMode → s.file.Agrees .off) :=
      iff_of_false (fun h => h₂.2.2 h.1) fun h => h₂.2.1 (h.1 h₂.1).1
    refine ht.mono (fun rc s₂ h₂ => ?_) fun e s₂ => hstuck s₂
    exact h₂.mono (fun _ s₃ => henter s₃) fun e s₃ => hstuck s₃
  · rintro e s₁ ⟨hl, hold, u, rfl⟩
    simp [hl, Agreed, hold, hi]

theorem atomic_iff {s : SwitchDb} {m : SwitchM JournalMode} :
    Atomic s (m s) ↔ wp m
      (fun eMode s' => s'.inTrans = s.inTrans ∧ eMode = s'.journalMode ∧ s'.file.Agrees eMode)
      (fun _ s' => s' = s) s := by
  unfold wp
  cases m s <;> rfl

/-- A postcondition that is a fixed proposition at every end is that proposition. -/
theorem wp_iff_of_forall {α : Type} {m : SwitchM α} {s : SwitchDb} {P : SwitchDb → Prop} {c : Prop}
    (h : wp m (fun _ s' => P s' ↔ c) (fun _ s' => P s' ↔ c) s) :
    wp m (fun _ s' => P s') (fun _ s' => P s') s ↔ c := by
  unfold wp at h ⊢
  cases hm : m s with
  | ok _ s' => rw [hm] at h; exact h
  | error _ s' => rw [hm] at h; exact h

theorem changeMode_atomic {s : SwitchDb} (h : s.inTrans = .none → s.pPage1 = none)
    (eMode : JournalMode) : Atomic s (changeMode a eMode s) ↔ Meets a s eMode := by
  rw [atomic_iff]
  simp only [changeMode, wp_bind, wp_get]
  by_cases he : eMode = s.journalMode
  · simp [Meets, he]
  rw [if_neg he]
  by_cases hi : s.inTrans = .none
  · rw [if_neg (by simp [hi])]
    simp only [wp_bind, wp_attempt, wp_get, wp_pure, hi, true_and]
    exact wp_iff_of_forall (switchMode_wp a he hi (h hi))
  · rw [if_pos hi]
    simp [Meets, he, hi]

/-- A switch of the journal mode is atomic exactly when the environment lets every call after the read
transaction succeed, or the version that is there goes with the mode that is left. -/
theorem journal_mode_atomic (s : SwitchDb) (eMode : ℤ) (h : s.inTrans = .none → s.pPage1 = none) :
    Atomic s (btreelite_journal_mode a eMode s) ↔
      ∀ mode, requested eMode = some mode → Meets a s (fallback a mode) := by
  unfold btreelite_journal_mode
  cases requested eMode with
  | none => simp [atomic_iff]
  | some mode =>
    simp only [Option.some.injEq, forall_eq']
    exact changeMode_atomic a h (fallback a mode)

/-- Answers to `lockBtree` with no log in the file system. -/
def lockAnswers : LockAnswers :=
  ⟨none, none, false, none, none, none, none, none, none, true, none, true⟩

/-- Answers to a switch that nobody stands in the way of. -/
def switchAnswers : Answers :=
  ⟨true, none, none, false, none, none, none, lockAnswers, lockAnswers, none, none, none, none, none,
    none, none, none⟩

/-- A handle of a database of one page, with its journal in memory. -/
def memoryHandle : SwitchDb :=
  { inTrans := .none, pPage1 := none, readOnly := false, noWal := false, nPage := 1,
    journalMode := .memory, useWal := false, file := ⟨1, (1, 1), 1, true⟩ }

instance (f : DbFile) (eMode : JournalMode) : Decidable (f.Agrees eMode) :=
  inferInstanceAs (Decidable (ite _ _ _))

instance (s : SwitchDb) : (r : EStateM.Result Rc SwitchDb JournalMode) → Decidable (Atomic s r)
  | .ok eMode s' => inferInstanceAs (Decidable (_ ∧ _ ∧ s'.file.Agrees eMode))
  | .error _ s' => inferInstanceAs (Decidable (s' = s))

theorem journal_mode_atomic_memory : Meets switchAnswers memoryHandle .wal :=
  (journal_mode_atomic switchAnswers memoryHandle 5 fun _ => rfl).1 (by decide) .wal rfl

/-- Another connection reads the database: the write transaction finds it busy. The read transaction
stays open, and the mode is the one of a log over a version that is not. -/
theorem journal_mode_counterexample :
    ¬ Atomic memoryHandle
      (btreelite_journal_mode { switchAnswers with pagerBegin := some .busy } 5 memoryHandle) := by
  decide

end Btreelite.Switch
