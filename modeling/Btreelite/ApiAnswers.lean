import Btreelite.ApiSteps

/-!
# The calls that do not fail

Which of the environment's answers a commit, a rollback or a savepoint reads. When these are no
failures the call returns.
-/

namespace Btreelite

open Prog
open Pager (SavepointOp)

variable {α β : Type} {s : BtreeliteDb α}

/-- The answers that `pager_end_transaction` reads. -/
def TxnPager.endCalls (p : TxnPager α) (bCommit : Bool) : ℕ :=
  if p.eState.num < EState.writerLocked.num then 0
  else if p.useWal = true then (if bCommit = true then 1 else 0)
  else 2

/-- The answers that the commit of a writer reads. -/
def TxnPager.commitCalls (p : TxnPager α) : ℕ :=
  (if p.eState.num < EState.writerCachemod.num then 0 else 1) + p.endCalls true

/-- The answers that `sqlite3PagerRollback` reads. -/
def TxnPager.rollbackCalls (p : TxnPager α) : ℕ :=
  if p.eState = .error ∨ p.eState.num ≤ EState.reader.num then 0
  else if p.useWal = true then 1
  else if p.jfd = false ∨ p.eState = .writerLocked then p.endCalls false
  else p.endCalls false + 1

/-- The answers that `sqlite3BtreeSavepoint` reads: for the cursors, for the pages and for page 1. -/
def BtreeliteDb.savepointCalls (s : BtreeliteDb α) (op : SavepointOp) (iSavepoint : ℤ) : ℕ :=
  (if op = .rollback then 1 else 0) +
    ((if op = .rollback ∧ (s.pager.useWal = true ∨ s.pager.jfd = true) then 1 else 0) +
      if (if iSavepoint < 0 ∧ s.initiallyEmpty = true then 0 else s.nPage) = 0 then 1 else 0)

/-- The first phase of a commit fails on such a pager. -/
def BtreeliteDb.PhaseOneFails (s : BtreeliteDb α) : Prop :=
  s.pager.errCode ≠ none ∨
    (EState.writerCachemod.num ≤ s.pager.eState.num ∧ (s.io 0).rc ≠ none)

namespace Api

@[simp] theorem wp_answer {Q : Answer α → BtreeliteDb α → Prop} {E : Rc → BtreeliteDb α → Prop} :
    wp answer Q E s ↔ Q (s.io 0) { s with io := fun i => s.io (i + 1) } := Iff.rfl

@[simp] theorem wp_modifyPager {Q : Unit → BtreeliteDb α → Prop} {E : Rc → BtreeliteDb α → Prop}
    {f : TxnPager α → TxnPager α} : wp (modifyPager f) Q E s ↔ Q () { s with pager := f s.pager } :=
  Iff.rfl

@[simp] theorem wp_ret {Q : Unit → BtreeliteDb α → Prop} {E : Rc → BtreeliteDb α → Prop} {rc : Option Rc} :
    wp (ret rc) Q E s ↔ (rc = none → Q () s) ∧ ∀ e, rc = some e → E e s := by
  cases rc <;> simp [ret]

@[simp] theorem wp_result {m : ApiM α Unit} {Q : Option Rc → BtreeliteDb α → Prop}
    {E : Rc → BtreeliteDb α → Prop} :
    wp (result m) Q E s ↔ wp m (fun _ => Q none) (fun rc => Q (some rc)) s := by
  unfold wp result
  cases m s <;> rfl

/-- The first `n` answers are no failures. -/
def Fine (n : ℕ) (s : BtreeliteDb α) : Prop := ∀ i < n, (s.io i).rc = none

/-- From `s`, `m` returns without an error. -/
abbrev Succeeds (m : ApiM α β) (s : BtreeliteDb α) : Prop := wp m (fun _ _ => True) (fun _ _ => False) s

theorem pager_end_transaction_succeeds {bCommit : Bool} (h : Fine (s.pager.endCalls bCommit) s) :
    Succeeds (pager_end_transaction bCommit) s := by
  unfold Fine TxnPager.endCalls at h
  unfold Succeeds pager_end_transaction finalizeJournal pagerUnlockDb
  simp only [wp_bind, wp_get, wp_ite, wp_modifyPager, wp_answer, wp_ret, wp_pure]
  refine ⟨fun _ => trivial, fun he => ?_⟩
  rw [if_neg he] at h
  rcases hu : s.pager.useWal
  · -- without a log the journal and then the lock are given up
    have h0 := h 0 (by simp [hu])
    have h1 := h 1 (by simp [hu])
    simp [h0, h1]
  · rcases bCommit
    · simp
    · have h0 := h 0 (by simp [hu])
      simp [h0]

theorem sqlite3PagerCommitPhaseTwo_succeeds (he : s.pager.errCode = none)
    (h : Fine (s.pager.endCalls true) s) : Succeeds sqlite3PagerCommitPhaseTwo s := by
  unfold Succeeds sqlite3PagerCommitPhaseTwo
  refine wp_bind.2 (wp_get.2 ?_)
  rw [he]
  refine wp_bind.2 (wp_result.2 ((pager_end_transaction_succeeds h).mono (fun _ s' _ => ?_)
    fun _ _ => False.elim))
  trivial

theorem sqlite3PagerCommitPhaseOne_fails (h : s.PhaseOneFails) :
    wp sqlite3PagerCommitPhaseOne (fun _ _ => False) (fun _ s' => s'.pager = s.pager) s := by
  unfold sqlite3PagerCommitPhaseOne
  refine wp_bind.2 (wp_get.2 ?_)
  rcases h with he | ⟨hs, ha⟩
  · obtain ⟨rc, he⟩ := Option.ne_none_iff_exists'.1 he
    simp only [he]
    exact rfl
  · rcases he : s.pager.errCode with _ | rc
    · simp only [he]
      refine wp_ite.2 ⟨fun h => absurd h (Nat.not_lt.2 hs), fun _ => ?_⟩
      obtain ⟨rc, ha⟩ := Option.ne_none_iff_exists'.1 ha
      refine wp_bind.2 (wp_answer.2 (wp_bind.2 (wp_ret.2 ⟨fun h => absurd h ?_, fun _ _ => rfl⟩)))
      rw [ha]
      exact nofun
    · simp only [he]
      exact rfl

/-- When the answers are fine, both phases return. -/
theorem sqlite3PagerCommitPhaseOne_fine (he : s.pager.errCode = none)
    (h : Fine s.pager.commitCalls s) :
    wp sqlite3PagerCommitPhaseOne
      (fun _ s' => s'.pager.errCode = none ∧ Fine (s'.pager.endCalls true) s') (fun _ _ => False)
      s := by
  unfold TxnPager.commitCalls at h
  unfold sqlite3PagerCommitPhaseOne
  refine wp_bind.2 (wp_get.2 ?_)
  simp only [he]
  refine wp_ite.2 ⟨fun hs => ?_, fun hs => ?_⟩
  · rw [if_pos hs, Nat.zero_add] at h
    exact ⟨he, h⟩
  · rw [if_neg hs] at h
    have h0 := h 0 (by omega)
    have hf : ∀ i < s.pager.endCalls true, (s.io (i + 1)).rc = none := fun i hi => h (i + 1) (by omega)
    refine wp_bind.2 (wp_answer.2 (wp_bind.2 (wp_ret.2 ⟨fun _ => ?_, fun e he => ?_⟩)))
    · refine wp_ite.2 ⟨fun hu => ⟨he, hf⟩, fun hu => ⟨he, fun i hi => hf i ?_⟩⟩
      -- a finished writer is still a writer
      have hw : ¬ s.pager.eState.num < EState.writerLocked.num := by
        simp only [EState.num] at hs ⊢
        omega
      unfold TxnPager.endCalls at hi ⊢
      rw [if_neg hw]
      simpa [EState.num] using hi
    · rw [h0] at he
      cases he

theorem walRollback_succeeds (hu : s.pager.useWal = true) (he : s.pager.errCode = none)
    (h : (s.io 0).rc = none) : Succeeds walRollback s := by
  unfold Succeeds walRollback
  have hs : wp (sqlite3PagerSavepoint .rollback (-1)) (fun _ s' => s'.pager.useWal = true)
      (fun _ _ => False) s := by
    unfold sqlite3PagerSavepoint pagerPlaybackSavepoint
    refine wp_bind.2 (wp_get.2 ?_)
    simp only [he]
    have hl : (-1 : ℤ) < s.pager.aSavepoint.length := by omega
    rw [if_pos hl]
    refine wp_bind.2 (wp_modifyPager.2 ?_)
    rw [if_pos ⟨trivial, .inl hu⟩]
    refine wp_bind.2 (wp_answer.2 ?_)
    simp only [h]
    exact hu
  refine wp_bind.2 (wp_result.2 (hs.mono (fun _ s' hu' => ?_) fun _ _ => False.elim))
  have hc : s'.pager.endCalls false = 0 := by
    unfold TxnPager.endCalls
    simp [hu']
  have hf : Fine (s'.pager.endCalls false) s' := fun i hi => by omega
  refine wp_bind.2 (wp_result.2 ((pager_end_transaction_succeeds hf).mono (fun _ _ _ => ?_)
    fun _ _ => False.elim))
  trivial

theorem noJournalRollback_succeeds (eState : EState) (h : Fine (s.pager.endCalls false) s) :
    Succeeds (noJournalRollback eState) s := by
  unfold Succeeds noJournalRollback
  refine wp_bind.2 (wp_result.2 ((pager_end_transaction_succeeds h).mono (fun _ s' _ => ?_)
    fun _ _ => False.elim))
  exact wp_ite.2 ⟨fun _ => trivial, fun _ => trivial⟩

theorem pager_playback_succeeds (h : Fine (s.pager.endCalls false + 1) s) :
    Succeeds pager_playback s := by
  unfold Succeeds pager_playback
  refine wp_bind.2 (wp_answer.2 ?_)
  simp only [h 0 (Nat.succ_pos _)]
  refine wp_bind.2 (wp_modifyPager.2 (pager_end_transaction_succeeds fun i hi => ?_))
  exact h (i + 1) (Nat.succ_lt_succ hi)

theorem sqlite3PagerRollback_succeeds (he : s.pager.errCode = none)
    (h : Fine s.pager.rollbackCalls s) : Succeeds sqlite3PagerRollback s := by
  unfold TxnPager.rollbackCalls at h
  unfold Succeeds sqlite3PagerRollback
  refine wp_bind.2 (wp_get.2 ?_)
  refine wp_ite.2 ⟨fun _ => wp_ret.2 ⟨fun _ => trivial, fun e h => ?_⟩, fun h1 => ?_⟩
  · rw [he] at h
    cases h
  refine wp_ite.2 ⟨fun _ => trivial, fun h2 => ?_⟩
  rw [if_neg (not_or.2 ⟨h1, h2⟩)] at h
  refine wp_ite.2 ⟨fun hu => ?_, fun hu => ?_⟩
  · rw [if_pos hu] at h
    exact walRollback_succeeds hu he (h 0 Nat.one_pos)
  rw [if_neg hu] at h
  refine wp_ite.2 ⟨fun hj => ?_, fun hj => ?_⟩
  · rw [if_pos hj] at h
    exact noJournalRollback_succeeds _ h
  · rw [if_neg hj] at h
    refine wp_bind.2 (wp_result.2 ((pager_playback_succeeds h).mono (fun _ _ _ => ?_)
      fun _ _ => False.elim))
    trivial

/-- The first answer is for the cursors. -/
theorem sqlite3BtreeRollback_succeeds (he : s.pager.errCode = none)
    (h : Fine (s.pager.rollbackCalls + 1) s) : Succeeds sqlite3BtreeRollback s := by
  unfold Succeeds sqlite3BtreeRollback tick
  refine wp_bind.2 (wp_result.2 (wp_bind.2 (wp_answer.2 (wp_ret.2 ⟨fun _ => ?_, fun e h' => ?_⟩))))
  · have hw : wp rollbackWrite (fun rc2 _ => rc2 = none) (fun _ _ => False)
        { s with io := fun i => s.io (i + 1) } := by
      unfold rollbackWrite
      refine wp_bind.2 (wp_get.2 (wp_ite.2 ⟨fun _ => ?_, fun _ => rfl⟩))
      have hs : Succeeds sqlite3PagerRollback { s with io := fun i => s.io (i + 1) } :=
        sqlite3PagerRollback_succeeds he fun i hi => h (i + 1) (Nat.succ_lt_succ hi)
      refine wp_bind.2 (wp_result.2 (hs.mono (fun _ s' _ => ?_) fun _ _ => False.elim))
      have hr := refreshNPage_ctl s' rfl
      exact wp_bind.2 (hr.post fun _ _ _ => rfl)
    refine wp_bind.2 (hw.post fun rc2 s' hr => ?_)
    subst hr
    have hb := btreeEndTransaction_ctl s' rfl
    exact wp_bind.2 (hb.post fun _ _ _ => trivial)
  · rw [h 0 (Nat.succ_pos _)] at h'
    cases h'

/-- What a call that succeeds leaves when it reads `c` answers and only moves the pager. -/
abbrev Reads (m : ApiM α Unit) (k : ℕ) (s : BtreeliteDb α) : Prop :=
  wp m (fun _ s' => s'.nPage = s.nPage ∧ s'.initiallyEmpty = s.initiallyEmpty ∧
    s'.pager.errCode = s.pager.errCode ∧ s'.pager.useWal = s.pager.useWal ∧
    s'.pager.jfd = s.pager.jfd ∧ Fine k s') (fun _ _ => False) s

theorem tick_reads {k : ℕ} (h : Fine (1 + k) s) : Reads tick k s := by
  unfold Reads tick
  refine wp_bind.2 (wp_answer.2 (wp_ret.2 ⟨fun _ => ?_, fun e he => ?_⟩))
  · exact ⟨rfl, rfl, rfl, rfl, rfl, fun i hi => h (i + 1) (by omega)⟩
  · rw [h 0 (by omega)] at he
    cases he

theorem saveAllCursors_reads {op : SavepointOp} {k : ℕ}
    (h : Fine ((if op = .rollback then 1 else 0) + k) s) : Reads (saveAllCursors op) k s := by
  unfold saveAllCursors
  split_ifs at h ⊢ with ho
  · exact tick_reads h
  · rw [Nat.zero_add] at h
    exact ⟨rfl, rfl, rfl, rfl, rfl, h⟩

theorem sqlite3PagerSavepoint_reads {op : SavepointOp} {iSavepoint : ℤ} {k : ℕ}
    (he : s.pager.errCode = none)
    (h : Fine ((if op = .rollback ∧ (s.pager.useWal = true ∨ s.pager.jfd = true) then 1 else 0) + k)
      s) :
    Reads (sqlite3PagerSavepoint op iSavepoint) k s := by
  have hk : Fine k s := fun i hi => h i (by omega)
  unfold Reads sqlite3PagerSavepoint pagerPlaybackSavepoint
  refine wp_bind.2 (wp_get.2 ?_)
  simp only [he]
  refine wp_ite.2 ⟨fun _ => ?_, fun _ => ⟨rfl, rfl, he, rfl, rfl, hk⟩⟩
  refine wp_bind.2 (wp_modifyPager.2 (wp_ite.2 ⟨fun hp => ?_, fun _ => ⟨rfl, rfl, he, rfl, rfl, hk⟩⟩))
  rw [if_pos hp] at h
  refine wp_bind.2 (wp_answer.2 ?_)
  simp only [h 0 (by omega)]
  exact ⟨rfl, rfl, he, rfl, rfl, fun i hi => h (i + 1) (by omega)⟩

theorem newDatabase_reads (h : Fine (if s.nPage = 0 then 1 else 0) s) : Succeeds newDatabase s := by
  unfold Succeeds newDatabase sqlite3PagerWrite
  refine wp_bind.2 (wp_get.2 (wp_ite.2 ⟨fun _ => trivial, fun h0 => ?_⟩))
  rw [if_pos (Nat.eq_zero_of_not_pos h0)] at h
  refine wp_bind.2 (wp_bind.2 ((tick_reads (k := 0) h).mono (fun _ _ _ => ?_) fun _ _ => False.elim))
  trivial

theorem sqlite3BtreeSavepoint_succeeds {op : SavepointOp} {iSavepoint : ℤ}
    (he : s.pager.errCode = none) (h : Fine (s.savepointCalls op iSavepoint) s) :
    Succeeds (sqlite3BtreeSavepoint op iSavepoint) s := by
  unfold BtreeliteDb.savepointCalls at h
  unfold Succeeds sqlite3BtreeSavepoint
  refine wp_bind.2 (wp_get.2 (wp_ite.2 ⟨fun _ => ?_, fun _ => trivial⟩))
  refine wp_bind.2 ((saveAllCursors_reads h).mono (fun _ s₁ h₁ => ?_) fun _ _ => False.elim)
  obtain ⟨hn, hi, herr, hu, hj, hf⟩ := h₁
  rw [← hu, ← hj] at hf
  refine wp_bind.2 ((sqlite3PagerSavepoint_reads (herr.trans he) hf).mono (fun _ s₂ h₂ => ?_)
    fun _ _ => False.elim)
  obtain ⟨hn₂, hi₂, -, -, -, hf₂⟩ := h₂
  refine wp_bind.2 (wp_modify.2 (wp_bind.2 ((newDatabase_reads ?_).mono (fun _ _ _ => trivial)
    fun _ _ => False.elim)))
  rw [hi₂, hi]
  by_cases hc : iSavepoint < 0 ∧ s.initiallyEmpty = true
  · rw [if_pos hc] at hf₂ ⊢
    exact hf₂
  · rw [if_neg hc] at hf₂ ⊢
    rw [hn₂, hn]
    exact hf₂

/-- With an error code, or when the cursors cannot be saved, nothing has changed. -/
theorem sqlite3BtreeSavepoint_refused {op : SavepointOp} (iSavepoint : ℤ) (hw : s.inTrans = .write)
    (h : s.pager.errCode ≠ none ∨ (op = .rollback ∧ (s.io 0).rc ≠ none)) :
    wp (sqlite3BtreeSavepoint op iSavepoint) (fun _ _ => False) (fun _ s' => s'.ctl = s.ctl) s := by
  unfold sqlite3BtreeSavepoint
  refine wp_bind.2 (wp_get.2 (wp_ite.2 ⟨fun _ => ?_, absurd hw⟩))
  have hcur : wp (saveAllCursors op) (fun _ s' => s'.pager = s.pager ∧ s'.ctl = s.ctl ∧
      ¬ (op = .rollback ∧ (s.io 0).rc ≠ none)) (fun _ s' => s'.ctl = s.ctl) s := by
    unfold saveAllCursors tick
    refine wp_ite.2 ⟨fun _ => ?_, fun ho => ⟨rfl, rfl, fun hr => ho hr.1⟩⟩
    exact wp_bind.2 (wp_answer.2 (wp_ret.2 ⟨fun ha => ⟨rfl, rfl, fun hr => hr.2 ha⟩, fun _ _ => rfl⟩))
  refine wp_bind.2 (hcur.post fun _ s₁ ⟨hp, hc, hn⟩ => ?_)
  obtain ⟨rc, he⟩ := Option.ne_none_iff_exists'.1 (h.resolve_right hn)
  unfold sqlite3PagerSavepoint
  refine wp_bind.2 (wp_bind.2 (wp_get.2 ?_))
  rw [← hp] at he
  simp only [he]
  exact hc

/-- A writer without an error code commits when the answers are fine. -/
theorem sqlite3BtreeCommit_succeeds (he : s.pager.errCode = none) (h : Fine s.pager.commitCalls s) :
    Succeeds sqlite3BtreeCommit s := by
  unfold Succeeds sqlite3BtreeCommit sqlite3BtreeCommitPhaseOne
  have h1 : wp (do if (← get).inTrans = .write then sqlite3PagerCommitPhaseOne else pure ())
      (fun _ s' => s'.pager.errCode = none ∧ Fine (s'.pager.endCalls true) s') (fun _ _ => False)
      s := by
    refine wp_bind.2 (wp_get.2 (wp_ite.2 ⟨fun _ => sqlite3PagerCommitPhaseOne_fine he h,
      fun _ => ⟨he, fun i hi => h i ?_⟩⟩))
    unfold TxnPager.commitCalls
    omega
  refine wp_bind.2 (h1.post fun _ s₁ ⟨he₁, hf₁⟩ => ?_)
  unfold sqlite3BtreeCommitPhaseTwo commitWrite
  refine wp_bind.2 (wp_get.2 (wp_ite.2 ⟨fun _ => trivial, fun _ => wp_bind.2 ?_⟩))
  refine wp_bind.2 (wp_get.2 (wp_ite.2 ⟨fun _ => ?_, fun _ => ?_⟩))
  · exact (sqlite3PagerCommitPhaseTwo_succeeds he₁ hf₁).mono
      (fun _ s₂ _ => (btreeEndTransaction_ctl s₂ rfl).post fun _ _ _ => trivial) fun _ _ => id
  · exact (btreeEndTransaction_ctl s₁ rfl).post fun _ _ _ => trivial

end Api

end Btreelite
