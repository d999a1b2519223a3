import Btreelite.ApiRun
import Btreelite.ApiAnswers

/-!
# The savepoints of a handle

The API counts one savepoint more than the pager has, because the first one is the transaction. The
counts agree in every run of whose calls none fails once the pager has dropped savepoints
(`savepoints_agree`). The failures that break it are those of a rollback, which ends the transaction
and keeps the count, and those of a commit or of a savepoint call after the pager has done its part.
-/

namespace Btreelite

open Prog
open Pager (SavepointOp)

/-- With `n` savepoints open, the three counts agree. -/
structure Ctl.Agrees (n : ℕ) (v : Ctl) : Prop where
  nSavepoint : v.nSavepoint = n
  depth : v.depth = n - 1
  writer : v.inTrans ≠ .write → n = 0
  page1 : v.inTrans ≠ .none → v.pPage1 = true
  aDb : v.aDb = false

section Condition

variable {α : Type}

/-- A commit does not fail in its second phase, or it has no savepoint to lose. -/
def CommitOk (s : BtreeliteDb α) : Prop :=
  s.inTrans ≠ .write ∨ s.nSavepoint ≤ 1 ∨ s.PhaseOneFails ∨ Api.Fine s.pager.commitCalls s

/-- A rollback does not fail, or there is no savepoint. -/
def RollbackOk (s : BtreeliteDb α) : Prop :=
  s.nSavepoint = 0 ∨ (s.pager.errCode = none ∧ Api.Fine (s.pager.rollbackCalls + 1) s)

/-- A savepoint call is refused, commits, fails before the pager drops savepoints, has none to drop
or does not fail. -/
def SavepointOk (op : SavepointOp) (iSavepoint : ℤ) (s : BtreeliteDb α) : Prop :=
  if s.inTrans ≠ .write ∨ iSavepoint < 0 ∨ s.nSavepoint ≤ iSavepoint then True
  else if iSavepoint = 0 ∧ op = .release then CommitOk s
  else (op = .rollback ∧ s.nSavepoint = iSavepoint + 1) ∨ s.pager.errCode ≠ none ∨
    (op = .rollback ∧ (s.io 0).rc ≠ none) ∨ Api.Fine (s.savepointCalls op (iSavepoint - 1)) s

/-- The calls after which the counts still agree. -/
def StepOk : ApiOp → BtreeliteDb α → Prop
  | .commit, s => CommitOk s
  | .rollback, s => RollbackOk s
  | .savepoint op iSavepoint, s => SavepointOk op iSavepoint s
  | .integrity_check _, s => CommitOk { s with io := fun i => s.io (i + 1) }
  | _, _ => True

end Condition

namespace Ctl

variable {n : ℕ} {v v' : Ctl}

theorem Agrees.locks (h : v.Agrees n) (hw : v.inTrans ≠ .write) (hl : v.Locks v') :
    v'.Agrees 0 ∧ v'.inTrans = v.inTrans := by
  have h0 := h.writer hw
  have hi := hl.inTrans
  have hp : v'.inTrans ≠ .none → v'.pPage1 = true := fun hn =>
    hl.page1 (hi ▸ hn) (h.page1 (hi ▸ hn))
  obtain ⟨-, d, hv, hd⟩ := hl
  have hd0 : d = 0 := by
    rcases hd with rfl | rfl
    · rw [h.depth, h0]
    · rfl
  refine ⟨⟨?_, ?_, fun _ => rfl, hp, ?_⟩, hi⟩
  · rw [hv]
    exact h.nSavepoint.trans h0
  · rw [hv]
    exact hd0
  · rw [hv]
    exact h.aDb

theorem Agrees.drops (h : v.Agrees n) (hn : n ≤ 1) (hd : v.Drops v') : v' = v := by
  rcases hd with rfl | rfl
  · rfl
  · have h0 : v.depth = 0 := by
      rw [h.depth]
      omega
    rw [← h0]

theorem ended_inTrans (v : Ctl) : v.ended.inTrans = .none := by
  unfold ended unlocked
  split_ifs <;> rfl

/-- What a transaction leaves when it ends. -/
theorem Agrees.ended (h : v.Agrees n) (hd : v.Drops v') :
    v'.ended.depth = 0 ∧ v'.ended.nSavepoint = n ∧ v'.ended.aDb = false := by
  have hns : v'.nSavepoint = n ∧ v'.aDb = false ∧ v'.pPage1 = v.pPage1 := by
    rcases hd with rfl | rfl
    · exact ⟨h.nSavepoint, h.aDb, rfl⟩
    · exact ⟨h.nSavepoint, h.aDb, rfl⟩
  unfold Ctl.ended unlocked
  split_ifs with hc
  · exact ⟨rfl, hns.1, hns.2.1⟩
  · refine ⟨?_, hns.1, hns.2.1⟩
    -- without page 1 there was no transaction
    have hnone : v.inTrans = .none := by
      by_contra hne
      exact hc ⟨rfl, hns.2.2.trans (h.page1 hne)⟩
    have h0 : n = 0 := h.writer (by rw [hnone]; exact nofun)
    have hz : v.depth = 0 := by rw [h.depth, h0]
    rcases hd with rfl | rfl
    · exact hz
    · rfl

theorem agrees_zero {v : Ctl} (hn : v.nSavepoint = 0) (hd : v.depth = 0) (ht : v.inTrans = .none)
    (ha : v.aDb = false) : v.Agrees 0 :=
  ⟨hn, hd, fun _ => rfl, fun h => absurd ht h, ha⟩

theorem Agrees.ends (h : v.Agrees n) (he : v.Ends v') :
    v'.depth = 0 ∧ v'.nSavepoint = n ∧ v'.aDb = false ∧ v'.inTrans = .none := by
  rcases he with ⟨hn, rfl⟩ | ⟨v₁, hd, rfl⟩
  · have h0 : n = 0 := h.writer (by rw [hn]; exact nofun)
    exact ⟨by rw [h.depth, h0], h.nSavepoint, h.aDb, hn⟩
  · obtain ⟨h1, h2, h3⟩ := h.ended hd
    exact ⟨h1, h2, h3, ended_inTrans v₁⟩

end Ctl

namespace Api

variable {α β : Type} {s : BtreeliteDb α} {v : Ctl} {n : ℕ}

/-! ## Begin -/

/-- A writer that has opened a savepoint of the pager and not counted it yet. -/
structure Counted (n : ℕ) (v : Ctl) : Prop where
  write : v.inTrans = .write
  nSavepoint : v.nSavepoint = n
  depth : v.depth = n
  page1 : v.pPage1 = true
  aDb : v.aDb = false

theorem not_write {t : TransState} {wrflag : ℕ} (h : t = .none ∨ (t = .read ∧ wrflag ≠ 0)) :
    t ≠ .write := by
  rcases h with rfl | ⟨rfl, -⟩
  · exact nofun
  · exact nofun

theorem begun_agrees {wrflag : ℕ} (h : v.Agrees 0) (hp : v.pPage1 = true) :
    if wrflag = 0 then (v.begun wrflag).Agrees 0 else Counted 0 (v.begun wrflag) := by
  unfold Ctl.begun
  split_ifs
  · exact ⟨h.nSavepoint, h.depth, fun _ => rfl, fun _ => hp, h.aDb⟩
  · exact ⟨rfl, h.nSavepoint, by simp [h.depth, h.nSavepoint], hp, h.aDb⟩

theorem Ctl.Grows.agrees {v v' : Ctl} (h : v.Agrees n) (hg : v.Grows v') : v' = v := by
  obtain ⟨k, hk, rfl⟩ := hg
  have hk0 : k = 0 := by
    rw [h.depth, h.nSavepoint] at hk
    omega
  subst hk0
  rfl

theorem sqlite3BtreeBeginTrans_agrees (h : v.Agrees n) (wrflag nBusy : ℕ) :
    Ensures BtreeliteDb.ctl (sqlite3BtreeBeginTrans wrflag nBusy : ApiM α _) v
      (fun _ v' => if wrflag = 0 then v'.Agrees n else Counted n v') fun _ v' => v'.Agrees n := by
  refine (sqlite3BtreeBeginTrans_ctl wrflag nBusy).mono (fun _ v' hv => ?_) fun _ v' hv => ?_
  · by_cases hc : v.inTrans = .none ∨ (v.inTrans = .read ∧ wrflag ≠ 0)
    · rw [if_pos hc] at hv
      obtain ⟨v₁, hl, hp, rfl⟩ := hv
      have hw := not_write hc
      rw [h.writer hw]
      exact begun_agrees (h.locks hw hl).1 hp
    · rw [if_neg hc] at hv
      by_cases h0 : wrflag = 0
      · rw [if_pos h0] at hv ⊢
        exact hv ▸ h
      · rw [if_neg h0] at hv ⊢
        subst hv
        have hw : v.inTrans = .write := by
          rcases ht : v.inTrans with _ | _ | _
          · exact absurd (.inl ht) hc
          · exact absurd (.inr ⟨ht, h0⟩) hc
          · rfl
        refine ⟨hw, h.nSavepoint, ?_, h.page1 (by rw [hw]; exact nofun), h.aDb⟩
        simp only [h.depth, h.nSavepoint]
        omega
  · split_ifs at hv with hc
    · have hw := not_write hc
      have h0 := h.writer hw
      rcases hv with hl | ⟨v₁, hl, hp, -, hg⟩
      · exact h0 ▸ (h.locks hw hl).1
      · have h₁ := (h.locks hw hl).1
        have hb : Ctl.Agrees 0 { v₁ with inTrans := .write } :=
          ⟨h₁.nSavepoint, h₁.depth, fun _ => rfl, fun _ => hp, h₁.aDb⟩
        rw [h0, Ctl.Grows.agrees hb hg]
        exact hb
    · rw [Ctl.Grows.agrees h hv]
      exact h

theorem btreelite_begin_agrees (h : v.Agrees n) (wrflag : ℤ) (nBusy : ℕ) :
    Ensures BtreeliteDb.ctl (btreelite_begin wrflag nBusy : ApiM α _) v
      (fun _ v' => v'.Agrees (if wrflag = 0 then n else n + 1)) fun _ v' => v'.Agrees n := by
  unfold btreelite_begin
  refine Ensures.ite (fun _ => Ensures.throw h) fun hr => ?_
  refine (sqlite3BtreeBeginTrans_agrees h _ _).bind fun _ v₁ h₁ => ?_
  rintro s rfl
  have hz : wrflag.toNat = 0 ↔ wrflag = 0 := by omega
  unfold countSavepoint
  refine wp_modify.2 ?_
  by_cases h0 : wrflag = 0
  · rw [if_pos (hz.2 h0)] at h₁
    rw [if_pos h0, if_neg fun hc : wrflag ≠ 0 ∧ _ => hc.1 h0]
    exact h₁
  · rw [if_neg (mt hz.1 h0)] at h₁
    have hw : s.inTrans = .write := h₁.write
    rw [if_neg h0, if_pos ⟨h0, hw⟩]
    exact ⟨congrArg (· + 1) h₁.nSavepoint, h₁.depth, absurd hw, fun _ => h₁.page1, h₁.aDb⟩

/-! ## Commit and rollback -/

theorem sqlite3BtreeCommit_phaseOneFails (hw : s.inTrans = .write) (hf : s.PhaseOneFails) :
    wp sqlite3BtreeCommit (fun _ _ => False) (fun _ s' => s'.ctl = s.ctl ∧ s'.pager = s.pager) s := by
  unfold sqlite3BtreeCommit sqlite3BtreeCommitPhaseOne
  refine wp_bind.2 (wp_bind.2 (wp_get.2 (wp_ite.2 ⟨fun _ => ?_, absurd hw⟩)))
  have hs := sqlite3PagerCommitPhaseOne_same (v := s.ctl) s rfl
  exact ((sqlite3PagerCommitPhaseOne_fails hf).and hs).mono (fun _ _ hb => hb.1.elim)
    fun _ _ hb => ⟨hb.2, hb.1⟩

/-- With errors in the first phase only, a commit that fails has changed nothing. -/
theorem sqlite3BtreeCommit_agrees (h : s.ctl.Agrees n) (hc : CommitOk s) :
    wp sqlite3BtreeCommit (fun _ s' => s.ctl.Ends s'.ctl) (fun _ s' => s'.ctl = s.ctl) s := by
  have hctl := sqlite3BtreeCommit_ctl s rfl
  by_cases hw : s.inTrans = .write
  · have hfails : s.PhaseOneFails → wp sqlite3BtreeCommit (fun _ s' => s.ctl.Ends s'.ctl)
        (fun _ s' => s'.ctl = s.ctl) s := fun hf =>
      (sqlite3BtreeCommit_phaseOneFails hw hf).mono (fun _ _ => False.elim) fun _ _ => And.left
    rcases hc with hn | hn | hf | hf
    · exact absurd hw hn
    · have h1 : n ≤ 1 := h.nSavepoint ▸ hn
      exact hctl.mono (fun _ _ => id) fun _ _ hd => h.drops h1 hd.2
    · exact hfails hf
    · by_cases he : s.pager.errCode = none
      · have hs : Succeeds sqlite3BtreeCommit s := sqlite3BtreeCommit_succeeds he hf
        exact (hctl.and hs).mono (fun _ _ => And.left) fun _ _ hb => hb.2.elim
      · exact hfails (.inl he)
  · exact hctl.mono (fun _ _ => id) fun _ _ hd => absurd hd.1 hw

theorem btreelite_commit_agrees (h : s.ctl.Agrees n) (hc : CommitOk s) :
    wp btreelite_commit (fun _ s' => s'.ctl.Agrees 0 ∧ s'.inTrans = .none)
      (fun _ s' => s'.ctl.Agrees n) s := by
  unfold btreelite_commit
  refine wp_bind.2 ((sqlite3BtreeCommit_agrees h hc).mono (fun _ s₁ he => ?_) fun _ s₁ he => he ▸ h)
  obtain ⟨hd, -, ha, ht⟩ := h.ends he
  refine (callback_ctl ha s₁ rfl).mono (fun _ s₂ hv => ?_) fun _ _ => False.elim
  have ht₂ : s₂.inTrans = .none := (congrArg Ctl.inTrans hv).trans ht
  rw [hv]
  exact ⟨Ctl.agrees_zero rfl hd ht ha, ht₂⟩

theorem btreelite_rollback_agrees (h : s.ctl.Agrees n) (hr : RollbackOk s) :
    wp btreelite_rollback (fun _ s' => s'.ctl.Agrees 0 ∧ s'.inTrans = .none)
      (fun _ s' => s'.ctl.Agrees 0 ∧ s'.inTrans = .none) s := by
  have hctl := sqlite3BtreeRollback_ctl s rfl
  have hroll : wp sqlite3BtreeRollback (fun _ s' => ∃ v₁, s.ctl.Drops v₁ ∧ s'.ctl = v₁.ended)
      (fun _ s' => n = 0 ∧ ∃ v₁, s.ctl.Drops v₁ ∧ s'.ctl = v₁.ended) s := by
    rcases hr with h0 | ⟨he, hf⟩
    · have hn : n = 0 := h.nSavepoint ▸ h0
      exact hctl.mono (fun _ _ => id) fun _ _ hd => ⟨hn, hd⟩
    · exact (hctl.and (sqlite3BtreeRollback_succeeds he hf)).mono (fun _ _ => And.left)
        fun _ _ hb => hb.2.elim
  unfold btreelite_rollback
  refine wp_bind.2 (hroll.mono (fun _ s₁ ⟨v₁, hd, he⟩ => ?_) fun _ s₁ ⟨hn, v₁, hd, he⟩ => ?_)
  · obtain ⟨hz, -, ha⟩ := h.ended hd
    rw [← he] at hz ha
    have ht : s₁.ctl.inTrans = .none := he ▸ v₁.ended_inTrans
    refine (callback_ctl ha s₁ rfl).mono (fun _ s₂ hv => ?_) fun _ _ => False.elim
    have ht₂ : s₂.inTrans = .none := (congrArg Ctl.inTrans hv).trans ht
    rw [hv]
    exact ⟨Ctl.agrees_zero rfl hz ht ha, ht₂⟩
  · obtain ⟨hz, hns, ha⟩ := h.ended hd
    rw [← he] at hz hns ha
    have ht : s₁.ctl.inTrans = .none := he ▸ v₁.ended_inTrans
    exact ⟨Ctl.agrees_zero (hns.trans hn) hz ht ha, ht⟩

/-! ## Savepoints -/

/-- The savepoint that the API names is one of the pager's. -/
theorem kept_eq {op : SavepointOp} {iSavepoint : ℤ} (h : v.Agrees n) (h0 : 0 ≤ iSavepoint)
    (hn : iSavepoint < n) (hop : op = .rollback ∨ iSavepoint ≠ 0) :
    v.kept op (iSavepoint - 1) = if op = .release then iSavepoint.toNat - 1 else iSavepoint.toNat := by
  have hd := h.depth
  unfold Ctl.kept nNew
  rcases op with _ | _
  all_goals simp only [reduceCtorEq, if_true, if_false, false_or, ne_eq] at hop ⊢
  all_goals split_ifs <;> omega

/-- A savepoint call of the B-tree that fails has dropped no savepoint. -/
theorem sqlite3BtreeSavepoint_agrees {op : SavepointOp} {iSavepoint : ℤ} (h : s.ctl.Agrees n)
    (hw : s.inTrans = .write) (h0 : 0 ≤ iSavepoint) (hn : iSavepoint < n)
    (hop : op = .rollback ∨ iSavepoint ≠ 0)
    (hs : (op = .rollback ∧ s.nSavepoint = iSavepoint + 1) ∨ s.pager.errCode ≠ none ∨
      (op = .rollback ∧ (s.io 0).rc ≠ none) ∨ Fine (s.savepointCalls op (iSavepoint - 1)) s) :
    wp (sqlite3BtreeSavepoint op (iSavepoint - 1))
      (fun _ s' => s'.ctl = { s.ctl with
        depth := if op = .release then iSavepoint.toNat - 1 else iSavepoint.toNat })
      (fun _ s' => s'.ctl = s.ctl) s := by
  have hk := kept_eq h h0 hn hop
  have hctl := sqlite3BtreeSavepoint_ctl op (iSavepoint - 1) s rfl
  have hwc : s.ctl.inTrans = .write := hw
  rw [if_pos hwc, hk] at hctl
  have hrefused (hr : s.pager.errCode ≠ none ∨ (op = .rollback ∧ (s.io 0).rc ≠ none)) :
      wp (sqlite3BtreeSavepoint op (iSavepoint - 1))
        (fun _ s' => s'.ctl = { s.ctl with
          depth := if op = .release then iSavepoint.toNat - 1 else iSavepoint.toNat })
        (fun _ s' => s'.ctl = s.ctl) s :=
    (sqlite3BtreeSavepoint_refused (iSavepoint - 1) hw hr).mono (fun _ _ => False.elim) fun _ _ => id
  rcases hs with ⟨ho, hlast⟩ | hr | hr | hf
  · refine hctl.mono (fun _ _ => id) fun _ s' he => ?_
    rcases he with he | he
    · exact he
    · -- the pager keeps all it has
      have hd : iSavepoint.toNat = s.ctl.depth := by
        rw [h.depth, ← h.nSavepoint]
        have : (s.ctl.nSavepoint : ℤ) = iSavepoint + 1 := hlast
        omega
      rw [he, ho, if_neg nofun, hd]
  · exact hrefused (.inl hr)
  · exact hrefused (.inr hr)
  · by_cases he : s.pager.errCode = none
    · exact (hctl.and (sqlite3BtreeSavepoint_succeeds he hf)).mono (fun _ _ => And.left)
        fun _ _ hb => hb.2.elim
    · exact hrefused (.inl he)

theorem btreelite_savepoint_agrees {op : SavepointOp} {iSavepoint : ℤ} (h : s.ctl.Agrees n)
    (hs : SavepointOk op iSavepoint s) :
    wp (btreelite_savepoint op iSavepoint)
      (fun _ s' => s'.ctl.Agrees ((ApiOp.savepoint op iSavepoint).opened true s'.inTrans n))
      (fun _ s' => s'.ctl.Agrees n) s := by
  have hns : s.nSavepoint = n := h.nSavepoint
  unfold btreelite_savepoint
  refine wp_bind.2 (wp_get.2 (wp_ite.2 ⟨fun _ => h, fun hw => ?_⟩))
  refine wp_ite.2 ⟨fun _ => h, fun hr => ?_⟩
  have hw : s.inTrans = .write := not_not.1 hw
  unfold SavepointOk at hs
  rw [if_neg (not_or.2 ⟨not_not.2 hw, hr⟩)] at hs
  have h0 : 0 ≤ iSavepoint := by omega
  have hn : iSavepoint < n := by omega
  have hset (op : SavepointOp) (k m : ℕ) (s₁ : BtreeliteDb α) (hv : s₁.ctl = { s.ctl with depth := m })
      (hm : m = k - 1) (hk : (ApiOp.savepoint op iSavepoint).opened true .write n = k) :
      wp (setNSavepoint k)
        (fun _ s' => s'.ctl.Agrees ((ApiOp.savepoint op iSavepoint).opened true s'.inTrans n))
        (fun _ s' => s'.ctl.Agrees n) s₁ := by
    refine (setNSavepoint_ctl s₁ rfl).mono (fun _ s₂ he => ?_) fun _ _ => id
    have ht : s₂.inTrans = .write := by
      have h2 : s₂.ctl.inTrans = s₁.ctl.inTrans := by rw [he]
      rw [hv] at h2
      exact h2.trans hw
    rw [ht, hk, he, hv]
    exact ⟨rfl, hm, fun hne => absurd hw hne, h.page1, h.aDb⟩
  refine wp_ite.2 ⟨fun hz => ?_, fun hz => ?_⟩
  · refine wp_ite.2 ⟨fun ho => ?_, fun ho => ?_⟩
    · rw [if_pos ⟨hz, ho⟩] at hs
      refine (btreelite_commit_agrees h hs).mono (fun _ s₁ ⟨ha, ht⟩ => ?_) fun _ _ => id
      rw [ht]
      exact ha
    · rw [if_neg fun hc => ho hc.2] at hs
      have hr : op = .rollback := by
        rcases op with _ | _
        · exact absurd rfl ho
        · rfl
      subst hr hz
      have hb := sqlite3BtreeSavepoint_agrees h hw h0 hn (.inl rfl) hs
      exact wp_bind.2 (hb.mono (fun _ s₁ hv => hset .rollback 1 _ s₁ hv rfl rfl) fun _ _ he => he ▸ h)
  · rw [if_neg fun hc => hz hc.1] at hs
    have hb := sqlite3BtreeSavepoint_agrees h hw h0 hn (.inr hz) hs
    refine wp_bind.2 (hb.mono (fun _ s₁ hv => ?_) fun _ _ he => he ▸ h)
    refine hset op _ _ s₁ hv ?_ ?_
    · split_ifs
      · rfl
      · rfl
    · rcases op with _ | _
      · rfl
      · rfl

/-! ## The other calls -/

/-- In a write transaction the check begins nothing. -/
theorem btreelite_begin_zero (hw : s.inTrans = .write) (nBusy : ℕ) {Q : Unit → BtreeliteDb α → Prop}
    {E : Rc → BtreeliteDb α → Prop} : wp (btreelite_begin 0 nBusy) Q E s ↔ Q () s := by
  unfold btreelite_begin sqlite3BtreeBeginTrans countSavepoint
  simp [wp_ite, hw]

theorem btreelite_integrity_check_agrees (h : s.ctl.Agrees n) (nBusy : ℕ)
    (hc : CommitOk { s with io := fun i => s.io (i + 1) }) :
    wp (btreelite_integrity_check nBusy)
      (fun _ s' => ∃ m, s'.ctl.Agrees m ∧ (s'.inTrans = .write → m = n))
      (fun _ s' => ∃ m, s'.ctl.Agrees m ∧ (s'.inTrans = .write → m = n)) s := by
  have hend (rc : Option Rc) (s₁ : BtreeliteDb α) (h₁ : s₁.ctl.Agrees n) (hc : CommitOk s₁) :
      wp (do let _ ← result btreelite_commit; ret rc)
        (fun _ s' => ∃ m, s'.ctl.Agrees m ∧ (s'.inTrans = .write → m = n))
        (fun _ s' => ∃ m, s'.ctl.Agrees m ∧ (s'.inTrans = .write → m = n)) s₁ := by
    refine wp_bind.2 (wp_result.2 ((btreelite_commit_agrees h₁ hc).mono (fun _ s₂ ⟨ha, ht⟩ => ?_)
      fun _ s₂ ha => ?_))
    · have hm : s₂.inTrans = .write → 0 = n := fun hw => by rw [ht] at hw; cases hw
      exact wp_ret.2 ⟨fun _ => ⟨0, ha, hm⟩, fun _ _ => ⟨0, ha, hm⟩⟩
    · exact wp_ret.2 ⟨fun _ => ⟨n, ha, fun _ => rfl⟩, fun _ _ => ⟨n, ha, fun _ => rfl⟩⟩
  unfold btreelite_integrity_check
  by_cases hw : s.inTrans = .write
  · refine wp_bind.2 ((btreelite_begin_zero hw nBusy).2 (wp_bind.2 (wp_result.2 ?_)))
    unfold tick
    exact wp_bind.2 (wp_answer.2 (wp_ret.2 ⟨fun _ => hend _ _ h hc, fun _ _ => hend _ _ h hc⟩))
  · have h0 := h.writer hw
    refine wp_bind.2 ((btreelite_begin_agrees h 0 nBusy s rfl).mono (fun _ s₁ h₁ => ?_)
      fun _ s₁ h₁ => ⟨n, h₁, fun _ => rfl⟩)
    refine wp_bind.2 ((result_same tick_same s₁ rfl).mono (fun rc s₂ h₂ => ?_) fun _ s₂ h₂ =>
      ⟨n, h₂ ▸ h₁, fun _ => rfl⟩)
    have ha : s₂.ctl.Agrees n := h₂ ▸ h₁
    refine hend rc s₂ ha (.inr (.inl ?_))
    have hn : s₂.nSavepoint = n := ha.nSavepoint
    omega

theorem sqlite3BtreeSetVersion_agrees (h : v.Agrees 0) (iVersion nBusy : ℕ) :
    Ensures BtreeliteDb.ctl (sqlite3BtreeSetVersion iVersion nBusy : ApiM α _) v
      (fun _ v' => v'.Agrees 0) fun _ v' => v'.Agrees 0 := by
  unfold sqlite3BtreeSetVersion
  refine (sqlite3BtreeBeginTrans_agrees h 0 nBusy).bind fun _ v₁ h₁ => ?_
  rw [if_pos rfl] at h₁
  refine get_bind fun s _ => ?_
  refine Ensures.ite (fun _ => Ensures.pure h₁) fun _ => ?_
  refine (sqlite3BtreeBeginTrans_agrees h₁ 2 nBusy).bind fun _ v₂ h₂ => ?_
  rw [if_neg nofun] at h₂
  have hv₂ : v₂.Agrees 0 := ⟨h₂.nSavepoint, h₂.depth, fun _ => rfl, fun _ => h₂.page1, h₂.aDb⟩
  refine sqlite3PagerWrite_same.then (fun _ => hv₂) fun _ => ?_
  rintro s rfl
  exact hv₂

theorem Agrees.ends_zero {v' : Ctl} (h : v.Agrees 0) (he : v.Ends v') : v'.Agrees 0 := by
  obtain ⟨hd, hn, ha, ht⟩ := h.ends he
  exact Ctl.agrees_zero hn hd ht ha

theorem btreelite_journal_mode_agrees (h : v.Agrees n) (eMode : JournalMode) (nBusy : ℕ) :
    Ensures BtreeliteDb.ctl (btreelite_journal_mode eMode nBusy : ApiM α _) v
      (fun _ v' => v'.Agrees n) fun _ v' => v'.Agrees n := by
  unfold btreelite_journal_mode
  refine get_bind fun s hs => ?_
  refine Ensures.ite (fun _ => Ensures.pure h) fun _ => ?_
  refine Ensures.ite (fun _ => Ensures.throw h) fun hne => ?_
  have ht : v.inTrans = .none := (congrArg Ctl.inTrans hs).symm.trans (not_not.1 hne)
  have h0 : n = 0 := h.writer (by rw [ht]; exact nofun)
  subst h0
  refine (leaveMode_same _ _).then (fun _ => h) fun _ => ?_
  refine Ensures.bind (result_ctl (sqlite3BtreeSetVersion_agrees h _ _)) fun rc v₁ h₁ => ?_
  have hc : Ensures BtreeliteDb.ctl (commitVersion rc : ApiM α _) v₁ (fun _ v' => v'.Agrees 0)
      fun _ v' => v'.Agrees 0 := by
    unfold commitVersion
    refine get_bind fun s _ => Ensures.ite (fun _ => ?_) fun _ => Ensures.pure h₁
    exact sqlite3BtreeCommit_ctl.mono (fun _ _ => Agrees.ends_zero h₁) fun _ _ hd =>
      (h₁.drops (Nat.zero_le 1) hd.2) ▸ h₁
  refine hc.bind fun _ v₂ h₂ => ?_
  refine (enterMode_same _).then (fun _ => h₂) fun _ => ?_
  unfold sqlite3PagerSetJournalMode
  rintro s rfl
  exact h₂

end Api

section Run

variable {α : Type} {s : BtreeliteDb α} {n : ℕ}

theorem Ctl.Agrees.opened {op : ApiOp} {ok : Bool} {v : Ctl} {m : ℕ} (h : v.Agrees m)
    (hm : v.inTrans = .write → m = op.opened ok .write n) : v.Agrees (op.opened ok v.inTrans n) := by
  by_cases hw : v.inTrans = .write
  · rw [hw, ← hm hw]
    exact h
  · have h0 := h.writer hw
    rw [h0] at h
    unfold ApiOp.opened
    rwa [if_pos hw]

/-- What a call leaves when it meets its condition. -/
theorem ApiOp.run_agrees (op : ApiOp) (h : s.ctl.Agrees n) (hs : StepOk op s) :
    wp op.run (fun _ s' => s'.ctl.Agrees (op.opened true s'.inTrans n))
      (fun _ s' => s'.ctl.Agrees (op.opened false s'.inTrans n)) s := by
  have hkept {m : ApiM α Unit} (ho : op.opened true .write n = n)
      (hm : wp m (fun _ s' => s'.ctl.Agrees n) (fun _ s' => s'.ctl.Agrees n) s) :
      wp m (fun _ s' => s'.ctl.Agrees (op.opened true s'.inTrans n))
        (fun _ s' => s'.ctl.Agrees (op.opened false s'.inTrans n)) s :=
    hm.mono (fun _ s' ha => ha.opened fun _ => ho.symm) fun _ s' ha => ha.opened fun _ => rfl
  cases op with
  | begin wrflag nBusy =>
    exact (Api.btreelite_begin_agrees h wrflag nBusy s rfl).mono
      (fun _ s' ha => ha.opened fun _ => rfl) fun _ s' ha => ha.opened fun _ => rfl
  | commit =>
    refine (Api.btreelite_commit_agrees h hs).mono (fun _ s' ⟨ha, ht⟩ => ?_) fun _ s' ha =>
      ha.opened fun _ => rfl
    rw [ht]
    exact ha
  | rollback =>
    refine (Api.btreelite_rollback_agrees h hs).mono (fun _ s' ⟨ha, ht⟩ => ?_) fun _ s' ⟨ha, ht⟩ => ?_
    · rw [ht]
      exact ha
    · rw [ht]
      exact ha
  | savepoint op iSavepoint =>
    exact (Api.btreelite_savepoint_agrees h hs).mono (fun _ _ => id) fun _ s' ha =>
      ha.opened fun _ => rfl
  | update =>
    exact hkept rfl ((Api.updatePages_same s rfl).mono (fun _ _ he => he ▸ h) fun _ _ he => he ▸ h)
  | integrity_check nBusy =>
    exact (Api.btreelite_integrity_check_agrees h nBusy hs).mono
      (fun _ s' ⟨m, ha, hm⟩ => ha.opened hm) fun _ s' ⟨m, ha, hm⟩ => ha.opened hm
  | checkpoint =>
    have ha (k : ℕ) : Ctl.Agrees n { s.ctl with nCheckpoint := k } :=
      ⟨h.nSavepoint, h.depth, h.writer, h.page1, h.aDb⟩
    exact hkept rfl ((btreelite_checkpoint_ctl s rfl).mono (fun _ _ ⟨k, hk⟩ => hk ▸ ha k)
      fun _ _ ⟨k, hk⟩ => hk ▸ ha k)
  | wal_autocheckpoint nFrames =>
    have ha (x : Option ℕ) : Ctl.Agrees n { s.ctl with xWalCallback := x } :=
      ⟨h.nSavepoint, h.depth, h.writer, h.page1, h.aDb⟩
    exact hkept rfl (ha _)
  | journal_mode eMode nBusy =>
    exact hkept rfl (Api.btreelite_journal_mode_agrees h eMode nBusy s rfl)

theorem ApiRun.agrees (h : ApiRun StepOk n s) : s.ctl.Agrees n := by
  induction h with
  | start readOnly image io => exact ⟨rfl, rfl, fun _ => rfl, fun h => absurd rfl h, rfl⟩
  | @step n s h op io hp ih =>
    have hw := op.run_agrees (s := { s with io }) ih hp
    unfold wp at hw
    unfold ApiM.isOk ApiM.after
    rcases hr : op.run { s with io } with ⟨_, s'⟩ | ⟨_, s'⟩
    · rw [hr] at hw
      exact hw
    · rw [hr] at hw
      exact hw

/-- In a run whose calls meet their conditions, no savepoint is counted outside a write transaction,
and in one the API counts those that are open and the pager has one less. -/
theorem savepoints_agree (h : ApiRun StepOk n s) :
    (s.inTrans ≠ .write → s.nSavepoint = 0) ∧
      (s.inTrans = .write → s.nSavepoint = n ∧ s.pager.aSavepoint.length = n - 1) :=
  ⟨fun hw => h.agrees.nSavepoint.trans (h.agrees.writer hw),
    fun _ => ⟨h.agrees.nSavepoint, h.agrees.depth⟩⟩

end Run

section Example

/-- The second answer to a change of pages is that the disk is full. -/
def fullAnswers : ℕ → Answer ℕ := fun i =>
  { rc := if i = 1 then some .full else none, image := i, nPage := 1, hdrNPage := 1, mxFrame := 0
    version := 1 }

/-- A transaction, a change that finds the disk full, and a rollback that returns that error. -/
def failedRollback : BtreeliteDb ℕ :=
  [(ApiOp.begin 1 0, walAnswers), (.update, fullAnswers), (.rollback, walAnswers)].foldl
    (fun s op => op.1.run.after { s with io := op.2 }) (Api.opened false 0 walAnswers)

/-- The transaction is over, and the API still counts its savepoint: the next begin opens one in the
pager. -/
theorem failedRollback_phantom :
    ApiRun (fun _ _ => True) 0 failedRollback ∧ failedRollback.inTrans = .none ∧
      failedRollback.nSavepoint = 1 ∧
      ((ApiOp.begin 1 0).run.after
        { failedRollback with io := walAnswers }).pager.aSavepoint.length = 1 :=
  ⟨.step (.step (.step (.start false 0 walAnswers) (.begin 1 0) walAnswers trivial)
    .update fullAnswers trivial) .rollback walAnswers trivial, by decide, by decide, by decide⟩

/-- A nested begin. -/
theorem savepoints_agree_nested :
    ∃ s : BtreeliteDb ℕ, s.inTrans = .write ∧ s.nSavepoint = 2 ∧ s.pager.aSavepoint.length = 1 := by
  have h := ApiRun.step (.step (.start false 0 walAnswers) (.begin 1 0) walAnswers (P := StepOk) trivial)
    (.begin 1 0) walAnswers trivial
  exact ⟨_, by decide, (savepoints_agree h).2 (by decide)⟩

end Example

end Btreelite
