import Btreelite.ApiSteps

/-!
# Runs of a handle

A run makes any calls in any order, and the environment answers each as it likes. What the API counts
agrees with the pager as long as no call fails after the pager has dropped savepoints: a rollback that
returns an error has ended the transaction and left the count (`savepoints_agree`). No commit of any run
checkpoints, because the hook is given a null B-tree (`autocheckpoint_never`).
-/

namespace Btreelite

open Prog
open Pager (SavepointOp)

/-- A call of the API. -/
inductive ApiOp
  | begin (wrflag : ℤ) (nBusy : ℕ)
  | commit
  | rollback
  | savepoint (op : SavepointOp) (iSavepoint : ℤ)
  | update
  | integrity_check (nBusy : ℕ)
  | checkpoint
  | wal_autocheckpoint (nFrames : ℤ)
  | journal_mode (eMode : JournalMode) (nBusy : ℕ)
deriving DecidableEq

section Run

variable {α : Type}

def ApiOp.run : ApiOp → ApiM α Unit
  | begin wrflag nBusy => Api.btreelite_begin wrflag nBusy
  | commit => Api.btreelite_commit
  | rollback => Api.btreelite_rollback
  | savepoint op iSavepoint => Api.btreelite_savepoint op iSavepoint
  | update => Api.updatePages
  | integrity_check nBusy => Api.btreelite_integrity_check nBusy
  | checkpoint => Api.btreelite_checkpoint
  | wal_autocheckpoint nFrames => Api.btreelite_wal_autocheckpoint nFrames
  | journal_mode eMode nBusy => Api.btreelite_journal_mode eMode nBusy

/-- Whether a call returned without an error. -/
def ApiM.isOk {β : Type} (m : ApiM α β) (s : BtreeliteDb α) : Bool :=
  match m s with
  | .ok _ _ => true
  | .error _ _ => false

/-- The handle after a call, which may have failed. -/
def ApiM.after {β : Type} (m : ApiM α β) (s : BtreeliteDb α) : BtreeliteDb α :=
  match m s with
  | .ok _ s' => s'
  | .error _ s' => s'

/-- How many savepoints are open after a call in state `inTrans`, when `n` were before. -/
def ApiOp.opened (op : ApiOp) (ok : Bool) (inTrans : TransState) (n : ℕ) : ℕ :=
  if inTrans ≠ .write then 0
  else if ok = false then n
  else match op with
    | begin wrflag _ => if wrflag = 0 then n else n + 1
    | savepoint .release iSavepoint => iSavepoint.toNat
    | savepoint .rollback iSavepoint => iSavepoint.toNat + 1
    | _ => n

/-- The runs whose calls all have `P`, with the number of savepoints that are open. -/
inductive ApiRun (P : ApiOp → BtreeliteDb α → Prop) : ℕ → BtreeliteDb α → Prop
  | start (readOnly : Bool) (image : α) (io : ℕ → Answer α) :
      ApiRun P 0 (Api.opened readOnly image io)
  | step {n : ℕ} {s : BtreeliteDb α} (h : ApiRun P n s) (op : ApiOp) (io : ℕ → Answer α)
      (hp : P op { s with io }) :
      ApiRun P (op.opened (op.run.isOk { s with io }) (op.run.after { s with io }).inTrans n)
        (op.run.after { s with io })

theorem wp.after {β : Type} {m : ApiM α β} {s : BtreeliteDb α} {Q : BtreeliteDb α → Prop}
    (h : wp m (fun _ => Q) (fun _ => Q) s) : Q (m.after s) := by
  unfold wp at h
  unfold ApiM.after
  cases hm : m s with
  | ok a s' =>
    rw [hm] at h
    exact h
  | error e s' =>
    rw [hm] at h
    exact h

end Run

/-! ## The hook -/

namespace Ctl

/-- The hook has no B-tree, and no checkpoint was attempted. -/
structure NoCheckpoint (n : ℕ) (v : Ctl) : Prop where
  aDb : v.aDb = false
  nCheckpoint : v.nCheckpoint = n

variable {n : ℕ} {v v' : Ctl}

theorem NoCheckpoint.locks (h : v.NoCheckpoint n) (hl : v.Locks v') : v'.NoCheckpoint n := by
  obtain ⟨-, d, hv, -⟩ := hl
  rw [hv]
  exact ⟨h.aDb, h.nCheckpoint⟩

theorem NoCheckpoint.drops (h : v.NoCheckpoint n) (hd : v.Drops v') : v'.NoCheckpoint n := by
  rcases hd with rfl | rfl
  · exact h
  · exact ⟨h.aDb, h.nCheckpoint⟩

theorem NoCheckpoint.grows (h : v.NoCheckpoint n) (hg : v.Grows v') : v'.NoCheckpoint n := by
  obtain ⟨k, -, rfl⟩ := hg
  exact ⟨h.aDb, h.nCheckpoint⟩

theorem NoCheckpoint.beginFails {wrflag : ℕ} (h : v.NoCheckpoint n) (hb : v.BeginFails wrflag v') :
    v'.NoCheckpoint n := by
  rcases hb with hl | ⟨v₁, hl, -, -, hg⟩
  · exact h.locks hl
  · have h₁ := h.locks hl
    have hw : NoCheckpoint n { v₁ with inTrans := .write } := ⟨h₁.aDb, h₁.nCheckpoint⟩
    exact hw.grows hg

theorem NoCheckpoint.begun (h : v.NoCheckpoint n) (wrflag : ℕ) : (v.begun wrflag).NoCheckpoint n := by
  unfold Ctl.begun
  split_ifs
  · exact ⟨h.aDb, h.nCheckpoint⟩
  · exact ⟨h.aDb, h.nCheckpoint⟩

theorem NoCheckpoint.ended (h : v.NoCheckpoint n) : v.ended.NoCheckpoint n := by
  unfold Ctl.ended Ctl.unlocked
  split_ifs
  · exact ⟨h.aDb, h.nCheckpoint⟩
  · exact ⟨h.aDb, h.nCheckpoint⟩

theorem NoCheckpoint.ends (h : v.NoCheckpoint n) (he : v.Ends v') : v'.NoCheckpoint n := by
  rcases he with ⟨-, rfl⟩ | ⟨v₁, hd, rfl⟩
  · exact h
  · exact (h.drops hd).ended

end Ctl

namespace Api

variable {α β : Type} {v : Ctl} {n : ℕ}

/-- A program that attempts no checkpoint. -/
abbrev Quiet (m : ApiM α β) (v : Ctl) (n : ℕ) : Prop :=
  Ensures BtreeliteDb.ctl m v (fun _ v' => v'.NoCheckpoint n) fun _ v' => v'.NoCheckpoint n

theorem Same.quiet {m : ApiM α β} (h : Same m v) (hv : v.NoCheckpoint n) : Quiet m v n :=
  h.mono (fun _ _ h' => h' ▸ hv) fun _ _ h' => h' ▸ hv

theorem sqlite3BtreeBeginTrans_quiet (hv : v.NoCheckpoint n) (wrflag nBusy : ℕ) :
    Quiet (sqlite3BtreeBeginTrans wrflag nBusy : ApiM α _) v n := by
  refine (sqlite3BtreeBeginTrans_ctl wrflag nBusy).mono (fun _ v' h => ?_) fun _ v' h => ?_
  · split_ifs at h
    · obtain ⟨v₁, hl, -, rfl⟩ := h
      exact (hv.locks hl).begun wrflag
    · exact h ▸ hv
    · rw [h]
      exact ⟨hv.aDb, hv.nCheckpoint⟩
  · split_ifs at h
    · exact hv.beginFails h
    · exact hv.grows h

theorem sqlite3BtreeCommit_quiet (hv : v.NoCheckpoint n) :
    Quiet (sqlite3BtreeCommit : ApiM α _) v n :=
  sqlite3BtreeCommit_ctl.mono (fun _ _ => hv.ends) fun _ _ h => hv.drops h.2

theorem setNSavepoint_bind {k : ℕ} {m : ApiM α β} {Q : β → Ctl → Prop} {E : Rc → Ctl → Prop}
    (hm : Ensures BtreeliteDb.ctl m { v with nSavepoint := k } Q E) :
    Ensures BtreeliteDb.ctl (setNSavepoint k >>= fun _ => m) v Q E := by
  unfold setNSavepoint
  exact modify_bind (g := fun v => { v with nSavepoint := k }) hm fun _ => rfl

theorem setNSavepoint_ctl {k : ℕ} {E : Rc → Ctl → Prop} :
    Ensures BtreeliteDb.ctl (setNSavepoint k : ApiM α _) v
      (fun _ v' => v' = { v with nSavepoint := k }) E := by
  unfold setNSavepoint
  exact modify_ctl (g := fun v => { v with nSavepoint := k }) fun _ => rfl

/-- The end of a commit or a rollback that returned. -/
theorem callback_ctl (h : v.aDb = false) :
    Ensures BtreeliteDb.ctl (do setNSavepoint 0; btreeliteWalCallback : ApiM α _) v
      (fun _ v' => v' = { v with nSavepoint := 0 }) fun _ _ => False :=
  setNSavepoint_bind (btreeliteWalCallback_same h)

theorem btreelite_commit_quiet (hv : v.NoCheckpoint n) : Quiet (btreelite_commit : ApiM α _) v n := by
  unfold btreelite_commit
  refine (sqlite3BtreeCommit_quiet hv).bind fun _ v₁ h₁ => ?_
  exact (callback_ctl h₁.aDb).mono (fun _ v' h => h ▸ ⟨h₁.aDb, h₁.nCheckpoint⟩) fun _ _ => False.elim

theorem btreelite_rollback_quiet (hv : v.NoCheckpoint n) :
    Quiet (btreelite_rollback : ApiM α _) v n := by
  unfold btreelite_rollback
  have hr : Quiet (sqlite3BtreeRollback : ApiM α _) v n :=
    sqlite3BtreeRollback_ctl.mono (fun _ _ ⟨_, hd, h⟩ => h ▸ (hv.drops hd).ended)
      fun _ _ ⟨_, hd, h⟩ => h ▸ (hv.drops hd).ended
  refine hr.bind fun _ v₁ h₁ => ?_
  exact (callback_ctl h₁.aDb).mono (fun _ v' h => h ▸ ⟨h₁.aDb, h₁.nCheckpoint⟩) fun _ _ => False.elim

theorem sqlite3BtreeSavepoint_quiet (hv : v.NoCheckpoint n) (op : SavepointOp) (iSavepoint : ℤ) :
    Quiet (sqlite3BtreeSavepoint op iSavepoint : ApiM α _) v n := by
  refine (sqlite3BtreeSavepoint_ctl op iSavepoint).mono (fun _ v' h => ?_) fun _ v' h => ?_
  · rw [h]
    split_ifs
    · exact ⟨hv.aDb, hv.nCheckpoint⟩
    · exact hv
  · rcases h with rfl | rfl
    · exact hv
    · exact ⟨hv.aDb, hv.nCheckpoint⟩

theorem setNSavepoint_quiet (hv : v.NoCheckpoint n) (k : ℕ) : Quiet (setNSavepoint k : ApiM α _) v n :=
  setNSavepoint_ctl.mono (fun _ _ h => h ▸ ⟨hv.aDb, hv.nCheckpoint⟩) fun _ _ h => h

theorem btreelite_savepoint_quiet (hv : v.NoCheckpoint n) (op : SavepointOp) (iSavepoint : ℤ) :
    Quiet (btreelite_savepoint op iSavepoint : ApiM α _) v n := by
  unfold btreelite_savepoint
  refine get_bind fun s _ => ?_
  refine Ensures.ite (fun _ => Ensures.throw hv) fun _ => ?_
  refine Ensures.ite (fun _ => Ensures.throw hv) fun _ => ?_
  refine Ensures.ite (fun _ => ?_) fun _ => ?_
  · refine Ensures.ite (fun _ => btreelite_commit_quiet hv) fun _ => ?_
    exact (sqlite3BtreeSavepoint_quiet hv _ _).bind fun _ v₁ h₁ => setNSavepoint_quiet h₁ _
  · exact (sqlite3BtreeSavepoint_quiet hv _ _).bind fun _ v₁ h₁ => setNSavepoint_quiet h₁ _

theorem btreelite_begin_quiet (hv : v.NoCheckpoint n) (wrflag : ℤ) (nBusy : ℕ) :
    Quiet (btreelite_begin wrflag nBusy : ApiM α _) v n := by
  unfold btreelite_begin
  refine Ensures.ite (fun _ => Ensures.throw hv) fun _ => ?_
  refine (sqlite3BtreeBeginTrans_quiet hv _ _).bind fun _ v₁ h₁ => ?_
  rintro s rfl
  unfold countSavepoint
  refine wp_modify.2 ?_
  split_ifs
  · exact ⟨h₁.aDb, h₁.nCheckpoint⟩
  · exact h₁

theorem result_quiet {m : ApiM α Unit} (h : Quiet m v n) : Quiet (result m) v n := result_ctl h

theorem btreelite_integrity_check_quiet (hv : v.NoCheckpoint n) (nBusy : ℕ) :
    Quiet (btreelite_integrity_check nBusy : ApiM α _) v n := by
  unfold btreelite_integrity_check
  refine (btreelite_begin_quiet hv _ _).bind fun _ v₁ h₁ => ?_
  refine (result_quiet (tick_same.quiet h₁)).bind fun rc v₂ h₂ => ?_
  refine (result_quiet (btreelite_commit_quiet h₂)).bind fun _ v₃ h₃ => ?_
  exact (ret_same rc).quiet h₃

theorem updatePages_same : Same (updatePages : ApiM α _) v := by
  unfold updatePages
  refine get_bind fun s _ => ?_
  refine Ensures.ite (fun _ => ?_) fun _ => Ensures.throw rfl
  refine sqlite3PagerWrite_same.then (fun _ => rfl) fun _ => ?_
  refine answer_same.then (fun _ => rfl) fun a => ?_
  exact modify_bind (g := id) (pager_error_same a.rc) fun _ => rfl

theorem sqlite3BtreeSetVersion_quiet (hv : v.NoCheckpoint n) (iVersion nBusy : ℕ) :
    Quiet (sqlite3BtreeSetVersion iVersion nBusy : ApiM α _) v n := by
  unfold sqlite3BtreeSetVersion
  refine (sqlite3BtreeBeginTrans_quiet hv _ _).bind fun _ v₁ h₁ => ?_
  refine get_bind fun s _ => ?_
  refine Ensures.ite (fun _ => Ensures.pure h₁) fun _ => ?_
  refine (sqlite3BtreeBeginTrans_quiet h₁ _ _).bind fun _ v₂ h₂ => ?_
  refine sqlite3PagerWrite_same.then (fun _ => h₂) fun _ => ?_
  rintro s rfl
  exact h₂

theorem leaveMode_same (eOld eMode : JournalMode) : Same (leaveMode eOld eMode : ApiM α _) v := by
  unfold leaveMode
  refine Ensures.ite (fun _ => ?_) fun _ => Ensures.ite (fun _ => ?_) fun _ => Ensures.pure rfl
  · unfold sqlite3PagerCloseWal
    refine tick_same.then (fun _ => rfl) fun _ => ?_
    exact modifyPager_same (fun _ => rfl) fun _ => rfl
  · unfold sqlite3PagerSetJournalMode
    exact modifyPager_same (fun _ => rfl) fun _ => rfl

theorem enterMode_same (eMode : JournalMode) : Same (enterMode eMode : ApiM α _) v := by
  unfold enterMode
  refine Ensures.ite (fun _ => ?_) fun _ => Ensures.pure rfl
  unfold sqlite3PagerOpenWal
  refine get_bind fun s _ => ?_
  refine Ensures.ite (fun _ => Ensures.pure rfl) fun _ => ?_
  refine tick_same.then (fun _ => rfl) fun _ => ?_
  exact modifyPager_same (fun _ => rfl) fun _ => rfl

theorem btreelite_journal_mode_quiet (hv : v.NoCheckpoint n) (eMode : JournalMode) (nBusy : ℕ) :
    Quiet (btreelite_journal_mode eMode nBusy : ApiM α _) v n := by
  unfold btreelite_journal_mode
  refine get_bind fun s _ => ?_
  refine Ensures.ite (fun _ => Ensures.pure hv) fun _ => ?_
  refine Ensures.ite (fun _ => Ensures.throw hv) fun _ => ?_
  refine (leaveMode_same _ _).then (fun _ => hv) fun _ => ?_
  refine (result_quiet (sqlite3BtreeSetVersion_quiet hv _ _)).bind fun rc v₁ h₁ => ?_
  have hc : Quiet (commitVersion rc : ApiM α _) v₁ n := by
    unfold commitVersion
    refine get_bind fun s _ => ?_
    exact Ensures.ite (fun _ => sqlite3BtreeCommit_quiet h₁) fun _ => Ensures.pure h₁
  refine hc.bind fun _ v₂ h₂ => ?_
  refine (enterMode_same _).then (fun _ => h₂) fun _ => ?_
  unfold sqlite3PagerSetJournalMode
  exact (modifyPager_same (fun _ => rfl) fun _ => rfl : Same _ v₂).quiet h₂

end Api

section Run

variable {α : Type} {s : BtreeliteDb α} {n : ℕ}

theorem ApiOp.run_quiet (op : ApiOp) (hop : op ≠ .checkpoint) {v : Ctl} (hv : v.NoCheckpoint n) :
    Api.Quiet (op.run : ApiM α _) v n := by
  cases op with
  | begin wrflag nBusy => exact Api.btreelite_begin_quiet hv wrflag nBusy
  | commit => exact Api.btreelite_commit_quiet hv
  | rollback => exact Api.btreelite_rollback_quiet hv
  | savepoint op iSavepoint => exact Api.btreelite_savepoint_quiet hv op iSavepoint
  | update => exact Api.updatePages_same.quiet hv
  | integrity_check nBusy => exact Api.btreelite_integrity_check_quiet hv nBusy
  | checkpoint => exact absurd rfl hop
  | wal_autocheckpoint nFrames =>
    rintro s rfl
    exact ⟨hv.aDb, hv.nCheckpoint⟩
  | journal_mode eMode nBusy => exact Api.btreelite_journal_mode_quiet hv eMode nBusy

/-- A call of `btreelite_checkpoint` counts an attempt at most. -/
theorem btreelite_checkpoint_ctl {v : Ctl} :
    Ensures BtreeliteDb.ctl (Api.btreelite_checkpoint : ApiM α _) v
      (fun _ v' => ∃ k, v' = { v with nCheckpoint := k })
      fun _ v' => ∃ k, v' = { v with nCheckpoint := k } := by
  unfold Api.btreelite_checkpoint Api.sqlite3BtreeCheckpoint
  refine Ensures.ite (fun _ => Ensures.pure ⟨_, rfl⟩) fun _ => ?_
  refine Api.get_bind fun s _ => ?_
  refine Ensures.ite (fun _ => Ensures.throw ⟨_, rfl⟩) fun _ => ?_
  unfold Api.sqlite3PagerCheckpoint Api.modifyPager
  refine Api.modify_bind (g := fun v => { v with nCheckpoint := v.nCheckpoint + 1 }) ?_ fun _ => rfl
  exact Api.tick_same.mono (fun _ _ hv => ⟨_, hv⟩) fun _ _ hv => ⟨_, hv⟩

variable {P : ApiOp → BtreeliteDb α → Prop}

/-- The hook of a handle never gets its B-tree. -/
theorem ApiRun.aDb (h : ApiRun P n s) : s.aDb = false := by
  induction h with
  | start readOnly image io => rfl
  | @step n s h op io hp ih =>
    have hv : (s.ctl).NoCheckpoint s.pager.nCheckpoint := ⟨ih, rfl⟩
    by_cases hop : op = .checkpoint
    · subst hop
      refine wp.after (Q := fun s' => s'.aDb = false) ((btreelite_checkpoint_ctl { s with io } rfl).mono
        (fun _ s' ⟨k, hk⟩ => ?_) fun _ s' ⟨k, hk⟩ => ?_)
      · exact (congrArg Ctl.aDb hk).trans ih
      · exact (congrArg Ctl.aDb hk).trans ih
    · have hq : Api.Quiet (op.run : ApiM α _) s.ctl s.pager.nCheckpoint := op.run_quiet hop hv
      exact wp.after ((hq { s with io } rfl).mono (fun _ _ h => h.aDb) fun _ _ h => h.aDb)

/-- No commit, whatever its hook, attempts a checkpoint: only `btreelite_checkpoint` does. -/
theorem ApiRun.nCheckpoint (h : ApiRun (fun op (_ : BtreeliteDb α) => op ≠ .checkpoint) n s) :
    s.pager.nCheckpoint = 0 := by
  induction h with
  | start readOnly image io => rfl
  | @step n s h op io hp ih =>
    have hq : Api.Quiet (op.run : ApiM α _) s.ctl 0 := op.run_quiet hp ⟨h.aDb, ih⟩
    exact wp.after ((hq { s with io } rfl).mono (fun _ _ h => h.nCheckpoint) fun _ _ h => h.nCheckpoint)

/-- In every run, a commit attempts no checkpoint, however many frames it leaves in the log and however
few the hook asks for. -/
theorem autocheckpoint_never (io : ℕ → Answer α) {s' : BtreeliteDb α}
    (h : ApiRun (fun _ _ => True) n s) (hc : Api.btreelite_commit { s with io } = .ok () s') :
    s'.pager.nCheckpoint = s.pager.nCheckpoint := by
  have hq : Api.Quiet (Api.btreelite_commit : ApiM α _) s.ctl s.pager.nCheckpoint :=
    Api.btreelite_commit_quiet ⟨h.aDb, rfl⟩
  exact ((hq { s with io } rfl).of_ok hc).nCheckpoint

end Run

section Example

/-- Every call succeeds, on a file of one page in write-ahead mode. -/
def walAnswers : ℕ → Answer ℕ := fun _ =>
  { rc := none, image := 5, nPage := 1, hdrNPage := 1, mxFrame := 2, version := 2 }

/-- A writer with changes, whose hook is to checkpoint at one frame. -/
def changedPages : BtreeliteDb ℕ :=
  [ApiOp.journal_mode .wal 0, .wal_autocheckpoint 1, .begin 1 0, .update].foldl
    (fun s op => op.run.after { s with io := walAnswers }) (Api.opened false 0 walAnswers)

theorem changedPages_run : ApiRun (fun _ _ => True) 1 changedPages :=
  .step (.step (.step (.step (.start false 0 walAnswers) (.journal_mode .wal 0) walAnswers trivial)
    (.wal_autocheckpoint 1) walAnswers trivial) (.begin 1 0) walAnswers trivial)
    .update walAnswers trivial

/-- The log gets two frames, and the hook asked for one. -/
theorem changedPages_no_checkpoint :
    ApiRun (fun _ _ => True) 1 changedPages ∧ changedPages.xWalCallback = some 1 ∧
      changedPages.pager.useWal = true ∧ changedPages.inTrans = .write ∧
      ∃ s', Api.btreelite_commit { changedPages with io := walAnswers } = .ok () s' ∧
        1 ≤ s'.pager.mxFrame ∧ ¬ changedPages.pager.nCheckpoint < s'.pager.nCheckpoint :=
  ⟨changedPages_run, rfl, rfl, rfl, _, rfl, by decide, by decide⟩

theorem autocheckpoint_never_changedPages :
    ∃ s', Api.btreelite_commit { changedPages with io := walAnswers } = .ok () s' ∧
      s'.pager.nCheckpoint = changedPages.pager.nCheckpoint :=
  ⟨_, rfl, autocheckpoint_never walAnswers changedPages_run rfl⟩

end Example

end Btreelite
