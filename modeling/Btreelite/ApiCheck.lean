import Btreelite.ApiAgrees

/-!
# The transaction of the integrity check

`btreelite_integrity_check` begins a read transaction and commits. Inside a transaction its begin does
nothing, so its commit ends the transaction of the caller. It leaves a caller's transaction alone only
when that commit fails in its first phase (`integrity_check_undisturbed_iff`).
-/

namespace Btreelite

open Prog

variable {α : Type}

/-- Whether the pager is in a write transaction. -/
def TxnPager.Writes (p : TxnPager α) : Prop := EState.writerLocked.num ≤ p.eState.num

/-- A write transaction with its savepoints and its changes is as it was. -/
structure SameTransaction (s s' : BtreeliteDb α) : Prop where
  nSavepoint : s'.nSavepoint = s.nSavepoint
  aSavepoint : s'.pager.aSavepoint = s.pager.aSavepoint
  orig : s'.pager.orig = s.pager.orig
  image : s'.pager.image = s.pager.image
  errCode : s'.pager.errCode = s.pager.errCode
  writes : s'.pager.Writes ↔ s.pager.Writes

/-- The transaction state is as it was, and a write transaction is the same. -/
def Undisturbed (s s' : BtreeliteDb α) : Prop :=
  s'.inTrans = s.inTrans ∧ (s.inTrans = .write → SameTransaction s s')

/-- The answers to come do not matter. -/
theorem undisturbed_io {s s' : BtreeliteDb α} {io : ℕ → Answer α} :
    Undisturbed { s with io } s' ↔ Undisturbed s s' := by
  have hs : SameTransaction { s with io } s' ↔ SameTransaction s s' :=
    ⟨fun ⟨h1, h2, h3, h4, h5, h6⟩ => ⟨h1, h2, h3, h4, h5, h6⟩,
      fun ⟨h1, h2, h3, h4, h5, h6⟩ => ⟨h1, h2, h3, h4, h5, h6⟩⟩
  unfold Undisturbed
  rw [hs]

namespace Api

variable {s : BtreeliteDb α}

/-! ## A commit that fails -/

theorem pager_end_transaction_fails (bCommit : Bool) :
    wp (pager_end_transaction bCommit) (fun _ _ => True)
      (fun _ s' => s.pager.Writes ∧ s'.pager.eState = .reader) s := by
  unfold pager_end_transaction
  refine wp_bind.2 (wp_get.2 (wp_ite.2 ⟨fun _ => trivial, fun he => ?_⟩))
  have hw : s.pager.Writes := Nat.not_lt.1 he
  refine wp_bind.2 (wp_modifyPager.2 (wp_bind.2 ?_))
  have hj (s₁ : BtreeliteDb α) : wp (finalizeJournal bCommit) (fun _ _ => True) (fun _ _ => False) s₁ := by
    unfold finalizeJournal
    refine wp_bind.2 (wp_get.2 (wp_ite.2 ⟨fun _ => trivial, fun _ => ?_⟩))
    refine wp_bind.2 (wp_answer.2 (wp_ite.2 ⟨fun _ => trivial, fun _ => trivial⟩))
  have hu (s₁ : BtreeliteDb α) : wp pagerUnlockDb (fun _ _ => True) (fun _ _ => False) s₁ := by
    unfold pagerUnlockDb
    exact wp_bind.2 (wp_get.2 (wp_ite.2 ⟨fun _ => trivial, fun _ => trivial⟩))
  refine (hj _).mono (fun rc s₁ _ => wp_bind.2 ?_) fun _ _ => False.elim
  refine (hu s₁).mono (fun rc2 s₂ _ => ?_) fun _ _ => False.elim
  exact wp_bind.2 (wp_modifyPager.2 (wp_ret.2 ⟨fun _ => trivial, fun _ _ => ⟨hw, rfl⟩⟩))

/-- The second phase fails when it has left the write transaction of the pager. -/
theorem sqlite3PagerCommitPhaseTwo_fails (he : s.pager.errCode = none) :
    wp sqlite3PagerCommitPhaseTwo (fun _ _ => True)
      (fun _ s' => s.pager.Writes ∧ (s'.pager.eState = .reader ∨ s'.pager.errCode ≠ none)) s := by
  unfold sqlite3PagerCommitPhaseTwo
  refine wp_bind.2 (wp_get.2 ?_)
  simp only [he]
  refine wp_bind.2 (wp_result.2 ((pager_end_transaction_fails true).mono (fun _ _ _ => trivial)
    fun rc s₁ ⟨hw, hr⟩ => ?_))
  refine wp_bind.2 (wp_modifyPager.2 ⟨hw, ?_⟩)
  unfold TxnPager.error
  split_ifs
  · exact .inr nofun
  · exact .inl hr

/-- A first phase that is not bound to fail leaves a pager without an error, in the same state of
writing. -/
theorem sqlite3PagerCommitPhaseOne_passes (h : ¬ s.PhaseOneFails) :
    wp sqlite3PagerCommitPhaseOne
      (fun _ s' => s'.pager.errCode = none ∧ (s'.pager.Writes ↔ s.pager.Writes)) (fun _ _ => False)
      s := by
  obtain ⟨he, ha⟩ := not_or.1 h
  have he := not_not.1 he
  unfold sqlite3PagerCommitPhaseOne
  refine wp_bind.2 (wp_get.2 ?_)
  simp only [he]
  refine wp_ite.2 ⟨fun _ => ⟨he, Iff.rfl⟩, fun hs => ?_⟩
  have ha := not_not.1 (not_and.1 ha (Nat.not_lt.1 hs))
  refine wp_bind.2 (wp_answer.2 (wp_bind.2 (wp_ret.2 ⟨fun _ => ?_, fun e h' => ?_⟩)))
  · refine wp_ite.2 ⟨fun _ => ⟨he, Iff.rfl⟩, fun _ => ⟨he, ?_⟩⟩
    unfold TxnPager.Writes
    simp only [EState.num] at hs ⊢
    omega
  · rw [ha] at h'
    cases h'

/-- A commit of a writer either ends the transaction, or fails in its first phase and changes nothing,
or leaves a pager that no longer writes or that has an error. -/
theorem sqlite3BtreeCommit_write (hw : s.inTrans = .write) :
    wp sqlite3BtreeCommit (fun _ s' => ¬ s.PhaseOneFails ∧ s'.inTrans = .none)
      (fun _ s' => (s.PhaseOneFails ∧ s'.ctl = s.ctl ∧ s'.pager = s.pager) ∨
        (¬ s.PhaseOneFails ∧ ¬ SameTransaction s s')) s := by
  by_cases hf : s.PhaseOneFails
  · exact (sqlite3BtreeCommit_phaseOneFails hw hf).mono (fun _ _ => False.elim)
      fun _ _ h => .inl ⟨hf, h⟩
  · have he : s.pager.errCode = none := not_not.1 (not_or.1 hf).1
    unfold sqlite3BtreeCommit sqlite3BtreeCommitPhaseOne
    have h1 : wp (do if (← get).inTrans = .write then sqlite3PagerCommitPhaseOne else pure ())
        (fun _ s' => s'.pager.errCode = none ∧ (s'.pager.Writes ↔ s.pager.Writes) ∧
          s'.inTrans = .write) (fun _ _ => False) s := by
      refine wp_bind.2 (wp_get.2 (wp_ite.2 ⟨fun _ => ?_, absurd hw⟩))
      have hs := sqlite3PagerCommitPhaseOne_same (v := s.ctl) s rfl
      refine ((sqlite3PagerCommitPhaseOne_passes hf).and hs).mono (fun _ s' hb => ?_) fun _ _ => And.left
      exact ⟨hb.1.1, hb.1.2, (congrArg Ctl.inTrans hb.2).trans hw⟩
    refine wp_bind.2 (h1.mono (fun _ s₁ ⟨he₁, hw₁, ht₁⟩ => ?_) fun _ _ => False.elim)
    unfold sqlite3BtreeCommitPhaseTwo commitWrite
    refine wp_bind.2 (wp_get.2 (wp_ite.2 ⟨fun hn => ?_, fun _ => wp_bind.2 ?_⟩))
    · rw [ht₁] at hn
      cases hn
    · refine wp_bind.2 (wp_get.2 (wp_ite.2 ⟨fun _ => ?_, absurd ht₁⟩))
      refine (sqlite3PagerCommitPhaseTwo_fails he₁).mono (fun _ s₂ _ => ?_) fun _ s₂ ⟨hwr, hend⟩ => ?_
      · refine (btreeEndTransaction_ctl s₂ rfl).mono (fun _ s₃ hv => ⟨hf, ?_⟩) fun _ _ => False.elim
        have ht₃ : s₃.ctl.inTrans = .none := hv ▸ s₂.ctl.ended_inTrans
        exact ht₃
      · refine .inr ⟨hf, fun hsame => ?_⟩
        rcases hend with hr | hne
        · have hwr₂ := hsame.writes.2 (hw₁.1 hwr)
          unfold TxnPager.Writes at hwr₂
          rw [hr] at hwr₂
          exact absurd hwr₂ (by decide)
        · exact hne (hsame.errCode.trans he)

theorem btreelite_commit_write (hw : s.inTrans = .write) (ha : s.aDb = false) :
    wp btreelite_commit (fun _ s' => ¬ s.PhaseOneFails ∧ s'.inTrans = .none)
      (fun _ s' => (s.PhaseOneFails ∧ s'.ctl = s.ctl ∧ s'.pager = s.pager) ∨
        (¬ s.PhaseOneFails ∧ ¬ SameTransaction s s')) s := by
  unfold btreelite_commit
  have hq := sqlite3BtreeCommit_quiet (v := s.ctl) ⟨ha, rfl⟩ s rfl
  refine wp_bind.2 (((sqlite3BtreeCommit_write hw).and hq).mono (fun _ s₁ ⟨⟨hf, ht⟩, hn⟩ => ?_)
    fun _ _ => And.left)
  refine (callback_ctl hn.aDb s₁ rfl).mono (fun _ s₂ hv => ⟨hf, ?_⟩) fun _ _ => False.elim
  exact (congrArg Ctl.inTrans hv).trans ht

/-- The begin of the check: it opens a read transaction where there is none, or nothing. -/
theorem sqlite3BtreeBeginTrans_read {v : Ctl} (nBusy : ℕ) :
    Ensures BtreeliteDb.ctl (sqlite3BtreeBeginTrans 0 nBusy : ApiM α _) v
      (fun _ v' => v'.inTrans = if v.inTrans = .none then .read else v.inTrans)
      fun _ v' => v.inTrans = .none ∧ v'.inTrans = .none := by
  unfold sqlite3BtreeBeginTrans
  refine get_bind fun s hs => ?_
  have ht : s.inTrans = v.inTrans := congrArg Ctl.inTrans hs
  rw [ht]
  refine Ensures.ite (fun hc => ?_) fun hc => ?_
  · have hn : v.inTrans = .none := hc.resolve_right fun h => h.2 rfl
    rw [if_pos hn]
    refine (btreeBeginTrans_ctl 0 nBusy).mono (fun _ v' ⟨v₁, _, _, hv⟩ => ?_) fun _ v' h => ⟨hn, ?_⟩
    · exact congrArg Ctl.inTrans hv
    · rcases h with hl | ⟨v₁, -, -, h0, -⟩
      · exact hl.inTrans.trans hn
      · exact absurd rfl h0
  · rw [if_neg fun hn => hc (.inl hn)]
    exact Ensures.ite (fun _ => Ensures.pure rfl) fun h => absurd rfl h

theorem btreelite_begin_read {v : Ctl} {n : ℕ} (hv : v.NoCheckpoint n) (nBusy : ℕ) :
    Ensures BtreeliteDb.ctl (btreelite_begin 0 nBusy : ApiM α _) v
      (fun _ v' => (v'.inTrans = if v.inTrans = .none then .read else v.inTrans) ∧ v'.NoCheckpoint n)
      fun _ v' => v.inTrans = .none ∧ v'.inTrans = .none := by
  unfold btreelite_begin
  refine Ensures.ite (fun h => ?_) fun _ => ?_
  · omega
  · refine Ensures.bind (((sqlite3BtreeBeginTrans_read nBusy).and
      (sqlite3BtreeBeginTrans_quiet hv 0 nBusy)).mono (fun _ _ => id) fun _ _ => And.left)
      fun _ v₁ h₁ => ?_
    unfold countSavepoint
    rintro s rfl
    refine wp_modify.2 ?_
    rw [if_neg fun hc : (0 : ℤ) ≠ 0 ∧ _ => hc.1 rfl]
    exact h₁

/-- Outside a write transaction the check ends whatever transaction there is. -/
theorem btreelite_integrity_check_ends {v : Ctl} {n : ℕ} (hw : v.inTrans ≠ .write)
    (hv : v.NoCheckpoint n) (nBusy : ℕ) :
    Ensures BtreeliteDb.ctl (btreelite_integrity_check nBusy : ApiM α _) v
      (fun _ v' => v'.inTrans = .none) fun _ v' => v'.inTrans = .none := by
  unfold btreelite_integrity_check
  refine Ensures.bind ((btreelite_begin_read hv nBusy).mono (fun _ _ => id) fun _ _ => And.right)
    fun _ v₁ ⟨ht, hn⟩ => ?_
  have hr : v₁.inTrans = .read := by
    rw [ht]
    rcases hv : v.inTrans with _ | _ | _
    · rfl
    · rfl
    · exact absurd hv hw
  refine Ensures.bind result_tick fun rc v₂ hv₂ => ?_
  subst hv₂
  have hc : Ensures BtreeliteDb.ctl (btreelite_commit : ApiM α _) v₂ (fun _ v' => v'.inTrans = .none)
      fun _ v' => v'.inTrans = .none := by
    unfold btreelite_commit
    refine Ensures.bind ((sqlite3BtreeCommit_ctl.and (sqlite3BtreeCommit_quiet hn)).mono
      (fun _ _ => id) fun _ v' h => ?_) fun _ v₃ ⟨he, hn₃⟩ => ?_
    · have h2 := h.1.1
      rw [hr] at h2
      cases h2
    · have ht₃ : v₃.inTrans = .none := by
        rcases he with ⟨h, -⟩ | ⟨v₁, -, rfl⟩
        · rw [hr] at h
          cases h
        · exact v₁.ended_inTrans
      exact (callback_ctl hn₃.aDb).mono (fun _ v' h => h ▸ ht₃) fun _ _ => False.elim
  refine Ensures.bind (result_ctl hc) fun _ v₃ ht₃ => ?_
  exact (ret_same rc).mono (fun _ v' h => h ▸ ht₃) fun _ v' h => h ▸ ht₃

/-- In a write transaction the check is a commit. -/
theorem btreelite_integrity_check_write (hw : s.inTrans = .write) (ha : s.aDb = false) (nBusy : ℕ) :
    wp (btreelite_integrity_check nBusy)
      (fun _ s' => Undisturbed s s' ↔ BtreeliteDb.PhaseOneFails { s with io := fun i => s.io (i + 1) })
      (fun _ s' => Undisturbed s s' ↔ BtreeliteDb.PhaseOneFails { s with io := fun i => s.io (i + 1) })
      s := by
  have hcommit (rc : Option Rc) :
      wp (do let _ ← result btreelite_commit; ret rc)
        (fun _ s' => Undisturbed s s' ↔ BtreeliteDb.PhaseOneFails { s with io := fun i => s.io (i + 1) })
        (fun _ s' => Undisturbed s s' ↔ BtreeliteDb.PhaseOneFails { s with io := fun i => s.io (i + 1) })
        { s with io := fun i => s.io (i + 1) } := by
    have hc := btreelite_commit_write (s := { s with io := fun i => s.io (i + 1) }) hw ha
    refine wp_bind.2 (wp_result.2 (hc.mono (fun _ s₂ ⟨hf, ht⟩ => ?_) fun _ s₂ h => ?_))
    · have hu : Undisturbed s s₂ ↔ BtreeliteDb.PhaseOneFails { s with io := fun i => s.io (i + 1) } := by
        refine ⟨fun h => ?_, fun h => absurd h hf⟩
        have h1 := h.1
        rw [ht, hw] at h1
        cases h1
      exact wp_ret.2 ⟨fun _ => hu, fun _ _ => hu⟩
    · have hu : Undisturbed s s₂ ↔ BtreeliteDb.PhaseOneFails { s with io := fun i => s.io (i + 1) } := by
        rcases h with ⟨hf, hctl, hp⟩ | ⟨hf, hs⟩
        · refine ⟨fun _ => hf, fun _ => ⟨congrArg Ctl.inTrans hctl, fun _ => ?_⟩⟩
          have hn : s₂.nSavepoint = s.nSavepoint := congrArg Ctl.nSavepoint hctl
          exact ⟨hn, by rw [hp], by rw [hp], by rw [hp], by rw [hp], by rw [hp]⟩
        · exact ⟨fun h => (hs ((undisturbed_io.2 h).2 hw)).elim, fun h => absurd h hf⟩
      exact wp_ret.2 ⟨fun _ => hu, fun _ _ => hu⟩
  unfold btreelite_integrity_check tick
  refine wp_bind.2 ((btreelite_begin_zero hw nBusy).2 (wp_bind.2 (wp_result.2 ?_)))
  exact wp_bind.2 (wp_answer.2 (wp_ret.2 ⟨fun _ => hcommit _, fun _ _ => hcommit _⟩))

end Api

/-- In every state that a run reaches, the check leaves the transaction of its caller alone exactly when
there is none, or when there is a write transaction whose commit fails in its first phase. -/
theorem integrity_check_undisturbed_iff {P : ApiOp → BtreeliteDb α → Prop} {n : ℕ}
    {s : BtreeliteDb α} (h : ApiRun P n s) (io : ℕ → Answer α) (nBusy : ℕ) :
    Undisturbed s ((Api.btreelite_integrity_check nBusy).after { s with io }) ↔
      s.inTrans = .none ∨
        (s.inTrans = .write ∧ BtreeliteDb.PhaseOneFails { s with io := fun i => io (i + 1) }) := by
  by_cases hw : s.inTrans = .write
  · have hc := Api.btreelite_integrity_check_write (s := { s with io }) hw h.aDb nBusy
    have ha := wp.after (Q := fun s' => Undisturbed { s with io } s' ↔
      BtreeliteDb.PhaseOneFails { s with io := fun i => io (i + 1) }) hc
    have hn : s.inTrans ≠ .none := by
      rw [hw]
      exact nofun
    rw [undisturbed_io] at ha
    exact ha.trans ⟨fun hf => .inr ⟨hw, hf⟩, fun hor => (hor.resolve_left hn).2⟩
  · have hv : (s.ctl).NoCheckpoint s.pager.nCheckpoint := ⟨h.aDb, rfl⟩
    have ht := wp.after (Q := fun s' => s'.inTrans = .none)
      (Api.btreelite_integrity_check_ends hw hv nBusy { s with io } rfl)
    constructor
    · intro hu
      exact .inl (hu.1.symm.trans ht)
    · intro hor
      have hn : s.inTrans = .none := hor.resolve_right fun hb => hw hb.1
      exact ⟨ht.trans hn.symm, fun hc => absurd hc hw⟩

section Example

/-- The pages hold 7 after the change, and 5 before it. -/
def editAnswers : ℕ → Answer ℕ := fun _ =>
  { rc := none, image := 7, nPage := 1, hdrNPage := 1, mxFrame := 2, version := 2 }

/-- A write transaction with a change. -/
def editedPages : BtreeliteDb ℕ :=
  [(ApiOp.begin 1 0, walAnswers), (.update, editAnswers)].foldl
    (fun s op => op.1.run.after { s with io := op.2 }) (Api.opened false 5 walAnswers)

/-- The check commits the change, and a rollback after it undoes nothing. -/
theorem editedPages_committed :
    ApiRun (fun _ _ => True) 1 editedPages ∧ editedPages.inTrans = .write ∧
      editedPages.pager.orig = 5 ∧ editedPages.pager.image = 7 ∧
      let checked := (ApiOp.integrity_check 0).run.after { editedPages with io := editAnswers }
      ¬ Undisturbed editedPages checked ∧ checked.inTrans = .none ∧
        (ApiOp.rollback.run.after { checked with io := editAnswers }).pager.orig = 7 :=
  ⟨.step (.step (.start false 5 walAnswers) (.begin 1 0) walAnswers trivial) .update editAnswers trivial,
    by decide, by decide, by decide, fun h => absurd h.1 (by decide), by decide, by decide⟩

theorem integrity_check_undisturbed_opened :
    Undisturbed (Api.opened false 5 walAnswers)
      ((Api.btreelite_integrity_check 0).after (Api.opened false 5 walAnswers)) :=
  (integrity_check_undisturbed_iff (P := fun _ _ => True) (.start false 5 walAnswers) walAnswers 0).2
    (.inl rfl)

end Example

end Btreelite
