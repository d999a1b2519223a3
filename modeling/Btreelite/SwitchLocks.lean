import Btreelite.JournalSwitch

/-!
# The locks of a switch

The answers of the environment decide how far a switch of the journal mode comes: the predicates below
read them in the order of the calls. A call of `lockBtree` may open the log, also when it fails.
-/

namespace Btreelite.Switch

open Prog

theorem DbFile.dbSize_eq_zero {f : DbFile} : f.dbSize = 0 ↔ f.size = 0 := by
  unfold dbSize header
  by_cases h : f.size = 0
  · simp [h]
  · by_cases hn : f.nPage = 0
    · simp [h, hn]
    · by_cases hc : f.counter = false <;> simp [h, hn, hc]

theorem DbFile.header_eq {f : DbFile} (h : f.size ≠ 0) : f.header = ⟨f.version, f.nPage⟩ :=
  if_neg h

/-! ## What the environment lets through -/

section

variable (a : Answers) (l : LockAnswers) (f : DbFile) (useWal : Bool)

/-- The log can be closed. -/
def Closes : Prop :=
  if useWal = true then a.closeExclusive = none ∧ a.walClose = none
  else a.closeLock = none ∧ a.closeAccess = none ∧
    (a.closeExists = true →
      a.closeOpen = none ∧ a.closeExclusive = none ∧ a.walClose = none)

/-- A log in the file system is opened with the lock of the file. -/
def Presents : Prop :=
  l.wait = none ∧ l.access = none ∧ l.logExists = true ∧ l.countPages = none ∧ f.size ≠ 0 ∧
    a.walSupported = true ∧ l.openPresent = none

/-- The file is locked without a log, or with one that has nothing to be a log of. -/
def Plain : Prop :=
  l.wait = none ∧ l.access = none ∧
    (l.logExists = true → l.countPages = none ∧ f.size = 0 ∧ l.deleteLog = none)

/-- The shared lock is taken and page 1 is read. -/
def Shares : Prop :=
  ((useWal = true ∨ Presents a l f) ∧ l.beginRead = none ∨ useWal = false ∧ Plain l f) ∧
    l.pagecount = none ∧ l.getPage = none

/-- The version in page 1 asks for a log. -/
def Version2 (noWal : Bool) : Prop :=
  Shares a l f useWal ∧ f.size ≠ 0 ∧ l.magic = true ∧ f.version.2 = 2 ∧ noWal = false

/-- The log is open after the call of `lockBtree`, whether it fails or not. -/
def LogOpens (noWal : Bool) : Prop :=
  useWal = true ∨ Presents a l f ∨
    Version2 a l f useWal noWal ∧ a.walSupported = true ∧ l.openWal = none

/-- The header of a database that is not empty is accepted. -/
def Formed : Prop :=
  l.magic = true ∧ f.version.2 ≤ 2 ∧ l.format = true ∧ f.dbSize ≤ f.size

/-- Page 1 is read again because its version has the log opened. -/
def Reopens (noWal : Bool) : Prop :=
  Version2 a l f useWal noWal ∧ useWal = false ∧ ¬ Presents a l f

/-- The call of `lockBtree` returns no error. -/
def LockReturns (noWal : Bool) : Prop :=
  Shares a l f useWal ∧ (f.size ≠ 0 → ¬ Reopens a l f useWal noWal → Formed l f) ∧
    (Reopens a l f useWal noWal → a.walSupported = true ∧ l.openWal = none)

/-- The read transaction begins. -/
def Locks (noWal : Bool) : Prop :=
  LockReturns a a.lock f useWal noWal ∧
    (Reopens a a.lock f useWal noWal → LockReturns a a.relock f true noWal)

/-- What the write transaction needs to begin. -/
def WriteBegins : Prop := a.pagerBegin = none ∧ (f.size = 0 → a.writeNew = none)

/-- What it needs to correct page 1. -/
def Corrects : Prop := f.size ≠ 0 → f.dbSize ≠ f.nPage → a.writeNPage = none

/-- What the write of the version needs, the transaction being allowed. -/
def VersionWrites : Prop :=
  WriteBegins a f ∧ Corrects a f ∧ a.savepoint = none ∧ a.writeVersion = none

/-- The write transaction begins and the version is written to page 1. -/
def Begins (readOnly : Bool) : Prop :=
  readOnly = false ∧ (f.size ≠ 0 → f.version.1 ≤ 2) ∧ VersionWrites a f

/-- The database has the version, or it is written and committed. -/
def Ends (readOnly : Bool) (iVersion : ℕ) : Prop :=
  f.size ≠ 0 ∧ f.version = (iVersion, iVersion) ∨
    Begins a f readOnly ∧ a.phaseOne = none ∧ a.phaseTwo = none

end

/-! ## The locks -/

/-- What the locks leave of the state. They may open a log. -/
structure Locking (s s' : SwitchDb) : Prop where
  inTrans : s'.inTrans = s.inTrans
  file : s'.file = s.file
  noWal : s'.noWal = s.noWal
  useWal : s.useWal = true → s'.useWal = true
  mode : s.journalMode ≠ .wal → s'.useWal = false → s'.journalMode ≠ .wal

theorem Locking.refl (s : SwitchDb) : Locking s s := ⟨rfl, rfl, rfl, id, fun h _ => h⟩

theorem Locking.trans {s s' s'' : SwitchDb} (h : Locking s s') (h' : Locking s' s'') :
    Locking s s'' where
  inTrans := h'.inTrans.trans h.inTrans
  file := h'.file.trans h.file
  noWal := h'.noWal.trans h.noWal
  useWal := fun hs => h'.useWal (h.useWal hs)
  mode := fun hm hu =>
    h'.mode (h.mode hm (Bool.eq_false_iff.2 fun ht => by simp [h'.useWal ht] at hu)) hu

theorem wp_ret {rc : Option Rc} {s : SwitchDb} {Q : Unit → SwitchDb → Prop}
    {E : Rc → SwitchDb → Prop} :
    wp (ret rc) Q E s ↔ (rc = none → Q () s) ∧ ∀ e, rc = some e → E e s := by
  cases rc with
  | none => simp [ret]
  | some e => simp [ret]

theorem wp_pagerOpenWal {rc : Option Rc} {s : SwitchDb} {Q : Unit → SwitchDb → Prop}
    {E : Rc → SwitchDb → Prop} :
    wp (pagerOpenWal rc) Q E s ↔
      (rc = none → Q () { s with useWal := true }) ∧ ∀ e, rc = some e → E e s := by
  simp only [pagerOpenWal, wp_bind, wp_ret, wp_modify]

variable (a : Answers) (l : LockAnswers)

/-- The state with a log that was opened. -/
def SwitchDb.withLog (s : SwitchDb) : SwitchDb := { s with useWal := true, journalMode := .wal }

theorem Locking.withLog (s : SwitchDb) : Locking s s.withLog :=
  ⟨rfl, rfl, rfl, fun _ => rfl, fun _ h => by simp [SwitchDb.withLog] at h⟩

theorem sqlite3PagerOpenWal_wp (rc : Option Rc) (s : SwitchDb) :
    wp (sqlite3PagerOpenWal a rc)
      (fun isOpen s' => isOpen = s.useWal ∧
        if s.useWal = true then s' = s
        else a.walSupported = true ∧ rc = none ∧ s' = s.withLog)
      (fun _ s' => s' = s ∧ s.useWal = false ∧ ¬ (a.walSupported = true ∧ rc = none)) s := by
  simp only [sqlite3PagerOpenWal, wp_bind, wp_get]
  rw [wp_ite]
  refine ⟨fun h => ?_, fun h => ?_⟩
  · simp [h]
  · rw [wp_ite]
    refine ⟨fun hs => ?_, fun hs => ?_⟩
    · simp [h, hs]
    · simp only [wp_bind, wp_pagerOpenWal, wp_modify, wp_pure]
      refine ⟨fun hrc => ?_, fun e he => ?_⟩
      · simp [h, hs, hrc, SwitchDb.withLog]
      · simp [h, he]

/-- Without a log the mode is no longer the one of a log. -/
theorem Locking.noLog {s s' : SwitchDb} (hs : s.useWal = false)
    (h : s' = if s.journalMode = .wal then { s with journalMode := .delete } else s) :
    Locking s s' := by
  subst h
  split_ifs with hm
  · exact ⟨rfl, rfl, rfl, by simp [hs], fun h => absurd hm h⟩
  · exact Locking.refl s

theorem openPresent_wp {s : SwitchDb} (hs : s.useWal = false) :
    wp (openPresent a l)
      (fun _ s' => l.countPages = none ∧
        if s.file.size = 0 then l.deleteLog = none ∧ s' = s
        else a.walSupported = true ∧ l.openPresent = none ∧ s' = s.withLog)
      (fun _ s' => s' = s ∧ ¬ (l.countPages = none ∧
        if s.file.size = 0 then l.deleteLog = none
        else a.walSupported = true ∧ l.openPresent = none)) s := by
  simp only [openPresent, wp_bind, wp_ret, wp_get]
  refine ⟨fun hc => ?_, fun e he => by simp [he]⟩
  rw [wp_ite]
  refine ⟨fun h0 => ?_, fun h0 => ?_⟩
  · rw [wp_ret]
    exact ⟨fun hd => by simp [hc, h0, hd], fun e he => by simp [h0, he]⟩
  · rw [wp_bind]
    refine (sqlite3PagerOpenWal_wp a l.openPresent s).mono ?_ ?_
    · rintro _ s' ⟨-, h⟩
      rw [if_neg (by simp [hs])] at h
      exact wp_pure.2 ⟨hc, by rw [if_neg h0]; exact h⟩
    · rintro e s' ⟨rfl, -, h⟩
      exact ⟨rfl, by rw [if_neg h0]; exact fun h' => h h'.2⟩

/-- The log that the lock of the file opens, and what it leaves else. -/
theorem lockFile_wp (s : SwitchDb) :
    wp (lockFile a l)
      (fun _ s' => Locking s s' ∧ s'.pPage1 = s.pPage1 ∧ s'.readOnly = s.readOnly ∧
        (s'.useWal = true ↔ s.useWal = true ∨ Presents a l s.file) ∧
        (s.useWal = true ∨ Presents a l s.file ∨ Plain l s.file))
      (fun _ s' => s' = s ∧ ¬ (s.useWal = true ∨ Presents a l s.file ∨ Plain l s.file)) s := by
  simp only [lockFile, pagerOpenWalIfPresent, wp_bind, wp_get]
  rw [wp_ite]
  refine ⟨fun h => ?_, fun h => ?_⟩
  · simp [h, Locking.refl]
  have hs : s.useWal = false := by simpa using h
  simp only [wp_bind, wp_ret]
  refine ⟨fun hw => ⟨fun hx => ?_, fun e he => ?_⟩, fun e he => ?_⟩
  · rw [wp_ite]
    refine ⟨fun hl => (openPresent_wp a l hs).mono ?_ ?_, fun hl => ?_⟩
    · rintro _ s' ⟨hc, h'⟩
      split_ifs at h' with h0
      · obtain ⟨hd, rfl⟩ := h'
        exact ⟨Locking.refl s', rfl, rfl, by simp [hs, Presents, h0],
          .inr (.inr ⟨hw, hx, fun _ => ⟨hc, h0, hd⟩⟩)⟩
      · obtain ⟨hsup, ho, rfl⟩ := h'
        have hp : Presents a l s.file := ⟨hw, hx, hl, hc, h0, hsup, ho⟩
        exact ⟨Locking.withLog s, rfl, rfl, by simp [SwitchDb.withLog, hp], .inr (.inl hp)⟩
    · rintro e s' ⟨rfl, h'⟩
      refine ⟨rfl, ?_⟩
      rintro (hu | ⟨-, -, -, hc, h0, hp⟩ | ⟨-, -, hp⟩)
      · exact h hu
      · exact h' ⟨hc, by rw [if_neg h0]; exact hp⟩
      · exact h' ⟨(hp hl).1, by rw [if_pos (hp hl).2.1]; exact (hp hl).2.2⟩
    · rw [wp_modify]
      refine ⟨Locking.noLog hs rfl, ?_, ?_, ?_, .inr (.inr ⟨hw, hx, fun h' => absurd h' hl⟩)⟩
      · split <;> rfl
      · split <;> rfl
      · have hp : ¬ Presents a l s.file := fun hp => hl hp.2.2.1
        rw [or_iff_left hp]
        split_ifs <;> exact Iff.rfl
  · simp [hs, Presents, Plain, he]
  · simp [hs, Presents, Plain, he]

theorem Plain.not_presents {f : DbFile} (h : Plain l f) : ¬ Presents a l f :=
  fun hp => hp.2.2.2.2.1 (h.2.2 hp.2.2.1).2.1

/-- Where a call of `lockBtree` stands once it has read page 1. -/
structure Shared (s s' : SwitchDb) : Prop extends Locking s s' where
  pPage1 : s'.pPage1 = s.pPage1
  log : s'.useWal = true ↔ s.useWal = true ∨ Presents a l s.file

theorem sharePage1_wp (s : SwitchDb) :
    wp (sharePage1 a l)
      (fun _ s' => Shared a l s s' ∧ s'.readOnly = s.readOnly ∧ Shares a l s.file s.useWal)
      (fun _ s' => Shared a l s s' ∧ ¬ Shares a l s.file s.useWal) s := by
  simp only [sharePage1, sqlite3PagerSharedLock, wp_bind]
  refine (lockFile_wp a l s).mono ?_ ?_
  · rintro _ s₁ ⟨hlk, hp, hro, hu, hf⟩
    simp only [pagerBeginReadTransaction, wp_bind, wp_get]
    rw [wp_ite]
    refine ⟨fun h₁ => ?_, fun h₁ => ?_⟩
    · have hlog := hu.1 h₁
      have hsh : Shares a l s.file s.useWal ↔
          l.beginRead = none ∧ l.pagecount = none ∧ l.getPage = none := by
        have hpl : ¬ (s.useWal = false ∧ Plain l s.file) := by
          rintro ⟨hn, hpl⟩
          exact hpl.not_presents a l (hlog.resolve_left (by simp [hn]))
        unfold Shares
        rw [or_iff_left hpl, and_iff_right hlog]
      simp only [wp_ret, hsh]
      refine ⟨fun hb => ⟨fun hc => ⟨fun hg => ⟨⟨hlk, hp, hu⟩, hro, hb, hc, hg⟩, ?_⟩, ?_⟩, ?_⟩ <;>
        exact fun e he => ⟨⟨hlk, hp, hu⟩, by simp [he]⟩
    · have hnone := mt hu.2 h₁
      have hsh : Shares a l s.file s.useWal ↔ l.pagecount = none ∧ l.getPage = none := by
        have hpl : s.useWal = false ∧ Plain l s.file :=
          ⟨by simpa using fun h => hnone (.inl h), (or_assoc.2 hf).resolve_left hnone⟩
        unfold Shares
        rw [or_iff_right fun h => hnone h.1, and_iff_right hpl]
      simp only [wp_ret, wp_pure, hsh]
      refine ⟨fun hc => ⟨fun hg => ⟨⟨hlk, hp, hu⟩, hro, hc, hg⟩, ?_⟩, ?_⟩ <;>
        exact fun e he => ⟨⟨hlk, hp, hu⟩, by simp [he]⟩
  · rintro e s₁ ⟨rfl, h⟩
    refine ⟨⟨Locking.refl s₁, rfl, ?_⟩, fun hsh => h ?_⟩
    · exact ⟨.inl, fun h' => absurd (h'.imp_right .inl) h⟩
    · rcases hsh.1 with ⟨h', -⟩ | ⟨-, h'⟩
      · exact h'.imp_right .inl
      · exact .inr (.inr h')

theorem SwitchDb.readOnly_header (s : SwitchDb) :
    ∃ r, (if 2 < s.file.header.version.1 then { s with readOnly := true } else s) =
        { s with readOnly := r } ∧
      (r = true ↔ s.readOnly = true ∨ 2 < s.file.header.version.1) := by
  split_ifs with h
  · exact ⟨true, rfl, by simp [h]⟩
  · exact ⟨s.readOnly, rfl, by simp [h]⟩

/-- What a call of `lockBtree` that returns leaves. -/
structure LockBtree (s s' : SwitchDb) : Prop extends Locking s s' where
  log : s'.useWal = true ↔ LogOpens a l s.file s.useWal s.noWal
  returns : LockReturns a l s.file s.useWal s.noWal
  readOnly : s'.readOnly = true ↔ s.readOnly = true ∨ s.file.size ≠ 0 ∧ 2 < s.file.version.1
  reopened : Reopens a l s.file s.useWal s.noWal → s'.pPage1 = none
  kept : ¬ Reopens a l s.file s.useWal s.noWal →
    s'.pPage1 = some s.file.header ∧ s'.nPage = s.file.dbSize

/-- What a call that fails leaves. -/
structure LockFails (s s' : SwitchDb) : Prop extends Locking s s' where
  log : s'.useWal = true ↔ LogOpens a l s.file s.useWal s.noWal
  fails : ¬ LockReturns a l s.file s.useWal s.noWal
  pPage1 : s'.pPage1 = none

theorem checkFormat_wp {s : SwitchDb} {f : DbFile} (hs : s.file = f) :
    wp (checkFormat l)
      (fun _ s' => l.format = true ∧ f.dbSize ≤ f.size ∧
        s' = { s with pPage1 := some f.header, nPage := f.dbSize })
      (fun _ s' => s' = s ∧ ¬ (l.format = true ∧ f.dbSize ≤ f.size)) s := by
  subst hs
  unfold checkFormat
  rw [wp_ite]
  refine ⟨fun h => by simp [h], fun h => ?_⟩
  simp only [wp_bind, wp_get]
  rw [wp_ite]
  refine ⟨fun h' => ?_, fun h' => ?_⟩
  · exact ⟨rfl, fun hf => by omega⟩
  · exact ⟨by simpa using h, by omega, rfl⟩

theorem LogOpens.of_log {f : DbFile} {useWal noWal : Bool}
    (h : ¬ Reopens a l f useWal noWal) :
    LogOpens a l f useWal noWal ↔ useWal = true ∨ Presents a l f := by
  refine ⟨?_, fun h => h.imp_right .inl⟩
  rintro (hu | hp | ⟨hv, -⟩)
  · exact .inl hu
  · exact .inr hp
  · by_contra hn
    exact h ⟨hv, by simpa using fun hu => hn (.inl hu), fun hp => hn (.inr hp)⟩

section

variable {a l} {s s' : SwitchDb}

theorem Shared.fails (h : Shared a l s s') (hp : s.pPage1 = none)
    (hn : ¬ Reopens a l s.file s.useWal s.noWal) (h0 : s.file.size ≠ 0) (hf : ¬ Formed l s.file) :
    LockFails a l s s' where
  toLocking := h.toLocking
  log := h.log.trans (LogOpens.of_log a l hn).symm
  fails := fun hr => hf (hr.2.1 h0 hn)
  pPage1 := h.pPage1.trans hp

theorem Shared.keeps (h : Shared a l s s') (hsh : Shares a l s.file s.useWal)
    (hn : ¬ Reopens a l s.file s.useWal s.noWal) (hf : s.file.size ≠ 0 → Formed l s.file)
    (hr : s'.readOnly = true ↔ s.readOnly = true ∨ s.file.size ≠ 0 ∧ 2 < s.file.version.1) :
    LockBtree a l s { s' with pPage1 := some s.file.header, nPage := s.file.dbSize } where
  toLocking := h.toLocking.trans ⟨rfl, rfl, rfl, id, fun h _ => h⟩
  log := h.log.trans (LogOpens.of_log a l hn).symm
  returns := ⟨hsh, fun h0 _ => hf h0, fun h => absurd h hn⟩
  readOnly := hr
  reopened := fun h => absurd h hn
  kept := fun _ => ⟨rfl, rfl⟩

/-- The state with the flag that a read version from the future sets. -/
theorem Shared.setReadOnly (h : Shared a l s s') (r : Bool) :
    Shared a l s { s' with readOnly := r } :=
  ⟨h.toLocking.trans ⟨rfl, rfl, rfl, id, fun h _ => h⟩, h.pPage1, h.log⟩

end

theorem openVersion2_wp {s s' : SwitchDb} (h : Shared a l s s') (hp : s.pPage1 = none)
    (hv : Version2 a l s.file s.useWal s.noWal)
    (hr : s'.readOnly = true ↔ s.readOnly = true ∨ s.file.size ≠ 0 ∧ 2 < s.file.version.1) :
    wp (openVersion2 a l) (fun _ => LockBtree a l s) (fun _ => LockFails a l s) s' := by
  obtain ⟨hsh, h0, hm, hv2, hnw⟩ := hv
  have hre : Reopens a l s.file s.useWal s.noWal ↔ ¬ s'.useWal = true := by
    rw [h.log]
    simp [Reopens, Version2, hsh, h0, hm, hv2, hnw]
  simp only [openVersion2, wp_bind]
  refine (sqlite3PagerOpenWal_wp a l.openWal s').mono ?_ ?_
  · rintro isOpen s₁ ⟨rfl, h₁⟩
    rw [wp_ite]
    refine ⟨fun hu => ?_, fun hu => ?_⟩
    · rw [if_pos hu] at h₁
      subst h₁
      have hn : ¬ Reopens a l s.file s.useWal s.noWal := fun hr => hre.1 hr hu
      refine (checkFormat_wp l h.file).mono ?_ ?_
      · rintro _ s₂ ⟨hf, hd, rfl⟩
        exact h.keeps hsh hn (fun _ => ⟨hm, by omega, hf, hd⟩) hr
      · rintro e s₂ ⟨rfl, hf⟩
        exact h.fails hp hn h0 fun hf' => hf hf'.2.2
    · rw [if_neg hu] at h₁
      obtain ⟨hsup, ho, rfl⟩ := h₁
      exact
        { toLocking := h.toLocking.trans (Locking.withLog s')
          log := ⟨fun _ => .inr (.inr ⟨⟨hsh, h0, hm, hv2, hnw⟩, hsup, ho⟩), fun _ => rfl⟩
          returns := ⟨hsh, fun _ hn => absurd (hre.2 hu) hn, fun _ => ⟨hsup, ho⟩⟩
          readOnly := hr
          reopened := fun _ => h.pPage1.trans hp
          kept := fun hn => absurd (hre.2 hu) hn }
  · rintro e s₁ ⟨rfl, hu, ho⟩
    have hu' : ¬ s₁.useWal = true := by simp [hu]
    exact
      { toLocking := h.toLocking
        log := by
          simp only [LogOpens, ho, and_false, or_false]
          exact h.log
        fails := fun hr => ho (hr.2.2 (hre.2 hu'))
        pPage1 := h.pPage1.trans hp }

theorem checkHeader_wp {s s' : SwitchDb} (h : Shared a l s s') (hp : s.pPage1 = none)
    (h0 : s.file.size ≠ 0) (hr : s'.readOnly = s.readOnly)
    (hsh : Shares a l s.file s.useWal) :
    wp (checkHeader a l) (fun _ => LockBtree a l s) (fun _ => LockFails a l s) s' := by
  unfold checkHeader
  rw [wp_ite]
  refine ⟨fun hm => h.fails hp ?_ h0 ?_, fun hm => ?_⟩
  · exact fun hre => by simp [hre.1.2.2.1] at hm
  · exact fun hf => by simp [hf.1] at hm
  have hm : l.magic = true := by simpa using hm
  obtain ⟨r, hs₂, hr₂⟩ := s'.readOnly_header
  have hver : s'.file.header.version = s.file.version := by rw [h.file, DbFile.header_eq h0]
  simp only [wp_bind, wp_modify, wp_get, hs₂]
  have h₂ := h.setReadOnly r
  rw [hver] at hr₂ ⊢
  have hr₂' : r = true ↔ s.readOnly = true ∨ s.file.size ≠ 0 ∧ 2 < s.file.version.1 := by
    rw [hr₂, hr, and_iff_right h0]
  rw [wp_ite]
  refine ⟨fun hv => h₂.fails hp ?_ h0 ?_, fun hv => ?_⟩
  · exact fun hre => by have := hre.1.2.2.2.1; omega
  · exact fun hf => by have := hf.2.1; omega
  rw [wp_ite]
  refine ⟨fun hv2 => openVersion2_wp a l h₂ hp ⟨hsh, h0, hm, hv2.1, h.noWal ▸ hv2.2⟩ hr₂',
    fun hv2 => ?_⟩
  have hn : ¬ Reopens a l s.file s.useWal s.noWal := fun hre =>
    hv2 ⟨hre.1.2.2.2.1, h.noWal.trans hre.1.2.2.2.2⟩
  refine (checkFormat_wp l h₂.file).mono ?_ ?_
  · rintro _ s₂ ⟨hf, hd, rfl⟩
    exact h₂.keeps hsh hn (fun _ => ⟨hm, by omega, hf, hd⟩) hr₂'
  · rintro e s₂ ⟨rfl, hf⟩
    exact h₂.fails hp hn h0 fun hf' => hf hf'.2.2

theorem lockBtree_wp {s : SwitchDb} (hp : s.pPage1 = none) :
    wp (lockBtree a l) (fun _ => LockBtree a l s) (fun _ => LockFails a l s) s := by
  simp only [lockBtree, wp_bind, wp_get]
  refine (sharePage1_wp a l s).mono ?_ ?_
  · rintro _ s₁ ⟨h, hr, hsh⟩
    rw [wp_ite]
    simp only [h.file, DbFile.dbSize_eq_zero]
    refine ⟨fun h0 => ?_, fun h0 => checkHeader_wp a l h hp h0 hr hsh⟩
    have hk := h.keeps hsh (fun hre => hre.1.2.1 h0) (fun h => absurd h0 h) (by simp [hr, h0])
    simp only [keepPage1, wp_modify, h.file] at hk ⊢
    exact hk
  · rintro e s₁ ⟨h, hsh⟩
    have hn : ¬ Reopens a l s.file s.useWal s.noWal := fun hre => hsh hre.1.1
    exact
      { toLocking := h.toLocking
        log := h.log.trans (LogOpens.of_log a l hn).symm
        fails := fun hr => hsh hr.1
        pPage1 := h.pPage1.trans hp }

/-- What the read transaction has locked. -/
structure Locked (s s' : SwitchDb) : Prop extends Locking s s' where
  log : s'.useWal = true ↔ LogOpens a a.lock s.file s.useWal s.noWal
  locks : Locks a s.file s.useWal s.noWal
  readOnly : s'.readOnly = true ↔ s.readOnly = true ∨ s.file.size ≠ 0 ∧ 2 < s.file.version.1
  pPage1 : s'.pPage1 = some s.file.header
  nPage : s'.nPage = s.file.dbSize

/-- What is left when the read transaction could not begin. -/
structure Unlocked (s s' : SwitchDb) : Prop extends Locking s s' where
  log : s'.useWal = true ↔ LogOpens a a.lock s.file s.useWal s.noWal
  locks : ¬ Locks a s.file s.useWal s.noWal

theorem lockLoop_wp {s : SwitchDb} (hp : s.pPage1 = none) :
    wp (lockLoop a) (fun _ => Locked a s) (fun _ => Unlocked a s) s := by
  simp only [lockLoop, lockRound, wp_bind, wp_get]
  rw [if_pos hp]
  refine (lockBtree_wp a a.lock hp).mono ?_ ?_
  · intro _ s₁ h
    rw [wp_ite]
    refine ⟨fun h₁ => ?_, fun h₁ => ?_⟩
    · have hre : Reopens a a.lock s.file s.useWal s.noWal := by
        by_contra hn
        simp [(h.kept hn).1] at h₁
      have hopen := h.returns.2.2 hre
      have hu : s₁.useWal = true := h.log.2 (.inr (.inr ⟨hre.1, hopen⟩))
      have hlog : LogOpens a a.lock s.file s.useWal s.noWal := h.log.1 hu
      refine (lockBtree_wp a a.relock h₁).mono ?_ ?_
      · intro _ s₂ h'
        have hret := h'.returns
        have hn : ¬ Reopens a a.relock s₁.file s₁.useWal s₁.noWal := fun hre =>
          absurd hre.2.1 (by simp [hu])
        have hk := h'.kept hn
        have hr := h'.readOnly
        rw [h.file, hu, h.noWal] at hret
        rw [h.file] at hk hr
        exact
          { toLocking := h.toLocking.trans h'.toLocking
            log := iff_of_true (h'.useWal hu) hlog
            locks := ⟨h.returns, fun _ => hret⟩
            readOnly := by rw [hr, h.readOnly]; tauto
            pPage1 := hk.1
            nPage := hk.2 }
      · intro e s₂ h'
        have hfail := h'.fails
        rw [h.file, hu, h.noWal] at hfail
        exact
          { toLocking := h.toLocking.trans h'.toLocking
            log := iff_of_true (h'.useWal hu) hlog
            locks := fun hl => hfail (hl.2 hre) }
    · have hn : ¬ Reopens a a.lock s.file s.useWal s.noWal := fun hre => h₁ (h.reopened hre)
      exact
        { toLocking := h.toLocking
          log := h.log
          locks := ⟨h.returns, fun hre => absurd hre hn⟩
          readOnly := h.readOnly
          pPage1 := (h.kept hn).1
          nPage := (h.kept hn).2 }
  · exact fun e s₁ h => ⟨h.toLocking, h.log, fun hl => h.fails hl.1⟩

end Btreelite.Switch
