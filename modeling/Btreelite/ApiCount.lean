import Btreelite.ApiTxn

/-!
# The counts of a handle

What the functions of a handle do to its transaction state and to its counts of savepoints and
checkpoints. A failure inside a rollback or at the end of a commit drops the savepoints of the pager
all the same.
-/

namespace Btreelite

open Prog
open Pager (SavepointOp)

/-- The counts of a handle, and what decides how they change. -/
structure Ctl where
  nSavepoint : ℕ
  inTrans : TransState
  pPage1 : Bool
  /-- `pPager->nSavepoint` -/
  depth : ℕ
  aDb : Bool
  xWalCallback : Option ℕ
  nCheckpoint : ℕ

def BtreeliteDb.ctl {α : Type} (s : BtreeliteDb α) : Ctl :=
  ⟨s.nSavepoint, s.inTrans, s.pPage1, s.pager.aSavepoint.length, s.aDb, s.xWalCallback,
    s.pager.nCheckpoint⟩

/-- Nothing changes, or the pager loses its savepoints. -/
def Ctl.Drops (v v' : Ctl) : Prop := v' = v ∨ v' = { v with depth := 0 }

theorem Ctl.Drops.refl (v : Ctl) : v.Drops v := .inl rfl

theorem Ctl.Drops.trans {v v' v'' : Ctl} (h : v.Drops v') (h' : v'.Drops v'') : v.Drops v'' := by
  rcases h with rfl | rfl
  · exact h'
  · rcases h' with rfl | rfl
    · exact .inr rfl
    · exact .inr rfl

namespace Api

variable {α β : Type} {v : Ctl}

/-- A program that leaves the counts alone. -/
abbrev Same (m : ApiM α β) (v : Ctl) : Prop :=
  Ensures BtreeliteDb.ctl m v (fun _ v' => v' = v) fun _ v' => v' = v

/-- A program that may drop the savepoints of the pager. -/
abbrev Drop (m : ApiM α β) (v : Ctl) : Prop :=
  Ensures BtreeliteDb.ctl m v (fun _ => v.Drops) fun _ => v.Drops

theorem Same.drop {m : ApiM α β} (h : Same m v) : Drop m v :=
  h.mono (fun _ _ => .inl) fun _ _ => .inl

theorem Drop.bind {γ : Type} {m : ApiM α β} {f : β → ApiM α γ} (h : Drop m v)
    (hf : ∀ b v', Drop (f b) v') : Drop (m >>= f) v :=
  Ensures.bind h fun b v' hv => (hf b v').mono (fun _ _ => hv.trans) fun _ _ => hv.trans

theorem get_same : Same (get : ApiM α _) v := fun _ hs => hs

theorem get_bind {f : BtreeliteDb α → ApiM α β} {Q : β → Ctl → Prop} {E : Rc → Ctl → Prop}
    (hf : ∀ s, s.ctl = v → Ensures BtreeliteDb.ctl (f s) v Q E) :
    Ensures BtreeliteDb.ctl (get >>= f) v Q E :=
  Ensures.bind Ensures.get fun s _ ⟨hv, hs⟩ => hv ▸ hf s hs

theorem Same.then {γ : Type} {m : ApiM α β} {f : β → ApiM α γ} {Q : γ → Ctl → Prop}
    {E : Rc → Ctl → Prop} (h : Same m v) (hE : ∀ rc, E rc v)
    (hf : ∀ b, Ensures BtreeliteDb.ctl (f b) v Q E) : Ensures BtreeliteDb.ctl (m >>= f) v Q E :=
  Ensures.bind (h.mono (fun _ _ => id) fun rc _ hv => hv ▸ hE rc) fun b _ hv => hv ▸ hf b

theorem answer_same : Same (answer : ApiM α _) v := fun _ hs => hs

theorem modify_ctl {f : BtreeliteDb α → BtreeliteDb α} {g : Ctl → Ctl}
    (h : ∀ s, (f s).ctl = g s.ctl) {E : Rc → Ctl → Prop} :
    Ensures BtreeliteDb.ctl (modify f : ApiM α _) v (fun _ v' => v' = g v) E := by
  intro s hs
  exact (h s).trans (congrArg g hs)

theorem modify_same {f : BtreeliteDb α → BtreeliteDb α} (h : ∀ s, (f s).ctl = s.ctl) :
    Same (modify f : ApiM α _) v := modify_ctl (g := id) h

theorem modify_bind {f : BtreeliteDb α → BtreeliteDb α} {m : ApiM α β} {g : Ctl → Ctl}
    {Q : β → Ctl → Prop} {E : Rc → Ctl → Prop} (hm : Ensures BtreeliteDb.ctl m (g v) Q E)
    (h : ∀ s, (f s).ctl = g s.ctl) :
    Ensures BtreeliteDb.ctl (modify f >>= fun _ => m) v Q E :=
  Ensures.bind (modify_ctl h) fun _ _ hv => hv ▸ hm

theorem modifyPager_same {f : TxnPager α → TxnPager α} (h : ∀ p, (f p).aSavepoint = p.aSavepoint)
    (hn : ∀ p, (f p).nCheckpoint = p.nCheckpoint) : Same (modifyPager f : ApiM α _) v := by
  unfold modifyPager
  refine modify_same fun s => ?_
  simp [BtreeliteDb.ctl, h, hn]

theorem modifyPager_ctl {f : TxnPager α → TxnPager α} {g : ℕ → ℕ}
    (h : ∀ p, (f p).aSavepoint.length = g p.aSavepoint.length)
    (hn : ∀ p, (f p).nCheckpoint = p.nCheckpoint) {E : Rc → Ctl → Prop} :
    Ensures BtreeliteDb.ctl (modifyPager f : ApiM α _) v
      (fun _ v' => v' = { v with depth := g v.depth }) E := by
  unfold modifyPager
  refine modify_ctl (g := fun v => { v with depth := g v.depth }) fun s => ?_
  simp [BtreeliteDb.ctl, h, hn]

/-- The rule for a change of the pager that is followed by `m`. -/
theorem modifyPager_bind {f : TxnPager α → TxnPager α} {m : ApiM α β} {g : ℕ → ℕ}
    {Q : β → Ctl → Prop} {E : Rc → Ctl → Prop}
    (hm : Ensures BtreeliteDb.ctl m { v with depth := g v.depth } Q E)
    (h : ∀ p, (f p).aSavepoint.length = g p.aSavepoint.length)
    (hn : ∀ p, (f p).nCheckpoint = p.nCheckpoint) :
    Ensures BtreeliteDb.ctl (modifyPager f >>= fun _ => m) v Q E :=
  Ensures.bind (modifyPager_ctl h hn) fun _ _ hv => hv ▸ hm

theorem ret_same (rc : Option Rc) : Same (ret rc : ApiM α _) v := by
  cases rc with
  | none => exact Ensures.pure rfl
  | some rc => exact Ensures.throw rfl

theorem tick_same : Same (tick : ApiM α _) v := by
  unfold tick
  exact answer_same.then (fun _ => rfl) fun a => ret_same a.rc

theorem result_ctl {m : ApiM α Unit} {Q : Ctl → Prop} {E : Rc → Ctl → Prop}
    (h : Ensures BtreeliteDb.ctl m v (fun _ => Q) fun _ => Q) :
    Ensures BtreeliteDb.ctl (result m) v (fun _ => Q) E := by
  intro s hs
  have hw := h s hs
  unfold wp at hw ⊢
  unfold result
  cases hr : m s with
  | ok a s' =>
    rw [hr] at hw
    exact hw
  | error e s' =>
    rw [hr] at hw
    exact hw

theorem result_same {m : ApiM α Unit} (h : Same m v) : Same (result m) v := result_ctl h

theorem result_drop {m : ApiM α Unit} (h : Drop m v) : Drop (result m) v := result_ctl h

/-! ## The pager -/

theorem openSavepoints_ctl : ∀ (n : ℕ) (v : Ctl),
    Ensures BtreeliteDb.ctl (openSavepoints n : ApiM α _) v
      (fun _ v' => v' = { v with depth := v.depth + n })
      fun _ v' => ∃ k < n, v' = { v with depth := v.depth + k }
  | 0, v => Ensures.pure rfl
  | n + 1, v => by
    unfold openSavepoints
    refine tick_same.then (fun _ => ⟨0, Nat.succ_pos n, rfl⟩) fun _ => ?_
    refine modifyPager_bind (g := (· + 1)) ?_ (fun _ => List.length_append) fun _ => rfl
    refine (openSavepoints_ctl n _).mono (fun _ v' hv => ?_) fun _ v' ⟨k, hk, hv⟩ =>
      ⟨k + 1, by omega, ?_⟩
    · rw [hv, Nat.add_assoc, Nat.add_comm 1]
    · rw [hv, Nat.add_assoc, Nat.add_comm 1]

theorem sqlite3PagerOpenSavepoint_ctl (n : ℕ) :
    Ensures BtreeliteDb.ctl (sqlite3PagerOpenSavepoint n : ApiM α _) v
      (fun _ v' => v' = { v with depth := max v.depth n })
      fun _ v' => ∃ k, v.depth + k < n ∧ v' = { v with depth := v.depth + k } := by
  unfold sqlite3PagerOpenSavepoint
  refine get_bind fun s hs => ?_
  simp only []
  have hd : s.pager.aSavepoint.length = v.depth := congrArg Ctl.depth hs
  rw [hd]
  refine Ensures.ite (fun hlt => ?_) fun hge => Ensures.pure ?_
  · refine tick_same.then (fun _ => ⟨0, hlt, rfl⟩) fun _ => ?_
    refine (openSavepoints_ctl _ _).mono (fun _ v' hv => ?_) fun _ v' ⟨k, hk, hv⟩ =>
      ⟨k, by omega, hv⟩
    rw [hv, Nat.max_eq_right hlt.le, Nat.add_sub_cancel' hlt.le]
  · rw [Nat.max_eq_left (Nat.not_lt.1 hge)]

theorem pagerPlaybackSavepoint_same (image : α) : Same (pagerPlaybackSavepoint image) v := by
  unfold pagerPlaybackSavepoint
  refine answer_same.then (fun _ => rfl) fun a => ?_
  split
  · exact modifyPager_same (fun _ => rfl) fun _ => rfl
  · exact modifyPager_bind (g := id) (Ensures.throw rfl) (fun _ => rfl) fun _ => rfl

end Api

/-- The number of savepoints that are left. -/
def Ctl.kept (v : Ctl) (op : SavepointOp) (iSavepoint : ℤ) : ℕ :=
  if iSavepoint < v.depth then min (Api.nNew op iSavepoint) v.depth else v.depth

namespace Api

variable {α β : Type} {v : Ctl}

theorem sqlite3PagerSavepoint_ctl (op : SavepointOp) (iSavepoint : ℤ) :
    Ensures BtreeliteDb.ctl (sqlite3PagerSavepoint op iSavepoint : ApiM α _) v
      (fun _ v' => v' = { v with depth := v.kept op iSavepoint })
      fun _ v' => v' = v ∨ v' = { v with depth := v.kept op iSavepoint } := by
  unfold sqlite3PagerSavepoint
  refine get_bind fun s hs => ?_
  simp only []
  have hd : s.pager.aSavepoint.length = v.depth := congrArg Ctl.depth hs
  rw [hd]
  unfold Ctl.kept
  split
  · exact Ensures.throw (.inl rfl)
  · refine Ensures.ite (fun hlt => ?_) fun hge => ?_
    · rw [if_pos hlt]
      refine modifyPager_bind (g := min (nNew op iSavepoint)) ?_ (fun _ => List.length_take)
        fun _ => rfl
      refine Ensures.ite (fun _ => ?_) fun _ => Ensures.pure rfl
      exact (pagerPlaybackSavepoint_same _).mono (fun _ _ => id) fun _ _ => .inr
    · rw [if_neg hge]
      exact Ensures.pure rfl

theorem finalizeJournal_same (bCommit : Bool) : Same (finalizeJournal bCommit : ApiM α _) v := by
  unfold finalizeJournal
  refine get_bind fun s _ => ?_
  refine Ensures.ite (fun _ => Ensures.pure rfl) fun _ => ?_
  refine answer_same.then (fun _ => rfl) fun a => ?_
  have hm : ∀ f : TxnPager α → TxnPager α, (∀ p, (f p).aSavepoint = p.aSavepoint) →
      (∀ p, (f p).nCheckpoint = p.nCheckpoint) →
      Same (do modifyPager f; return a.rc) v := by
    intro f h1 h2
    exact modifyPager_bind (g := id) (Ensures.pure rfl) (fun p => congrArg List.length (h1 p)) h2
  split_ifs
  · exact hm _ (fun _ => rfl) fun _ => rfl
  · exact hm _ (fun _ => rfl) fun _ => rfl

theorem pagerUnlockDb_same : Same (pagerUnlockDb : ApiM α _) v := by
  unfold pagerUnlockDb
  refine get_bind fun s _ => ?_
  refine Ensures.ite (fun _ => Ensures.pure rfl) fun _ => ?_
  exact answer_same.then (fun _ => rfl) fun a => Ensures.pure rfl

theorem pager_end_transaction_drop (bCommit : Bool) :
    Drop (pager_end_transaction bCommit : ApiM α _) v := by
  unfold pager_end_transaction
  refine get_bind fun s _ => ?_
  refine Ensures.ite (fun _ => Ensures.pure (.refl v)) fun _ => ?_
  refine modifyPager_bind (g := fun _ => 0) ?_ (fun _ => rfl) fun _ => rfl
  refine Ensures.mono ?_ (fun _ _ => .inr) fun _ _ => .inr
  refine (finalizeJournal_same bCommit).then (fun _ => rfl) fun rc => ?_
  refine pagerUnlockDb_same.then (fun _ => rfl) fun rc2 => ?_
  refine modifyPager_bind (g := id) ?_ (fun _ => rfl) fun _ => rfl
  exact ret_same _

theorem pager_error_same (rc : Option Rc) : Same (pager_error rc : ApiM α _) v := by
  cases rc with
  | none => exact Ensures.pure rfl
  | some rc =>
    refine modifyPager_bind (g := id) (Ensures.throw rfl) (fun p => ?_) fun p => ?_
    · unfold TxnPager.error
      split_ifs <;> rfl
    · unfold TxnPager.error
      split_ifs <;> rfl

/-- A rollback to the first savepoint drops them all. -/
theorem sqlite3PagerSavepoint_drop :
    Drop (sqlite3PagerSavepoint .rollback (-1) : ApiM α _) v := by
  have hk : v.kept .rollback (-1) = 0 := by
    unfold Ctl.kept nNew
    simp
    omega
  refine (sqlite3PagerSavepoint_ctl _ _).mono (fun _ v' hv => ?_) fun _ v' hv => ?_
  · rw [hk] at hv
    exact .inr hv
  · rwa [hk] at hv

theorem walRollback_drop : Drop (walRollback : ApiM α _) v :=
  (result_drop sqlite3PagerSavepoint_drop).bind fun _ _ =>
    (result_drop (pager_end_transaction_drop _)).bind fun _ _ => (pager_error_same _).drop

theorem noJournalRollback_drop (eState : EState) : Drop (noJournalRollback eState : ApiM α _) v := by
  unfold noJournalRollback
  refine (result_drop (pager_end_transaction_drop _)).bind fun rc v => ?_
  refine Ensures.ite (fun _ => ?_) fun _ => (pager_error_same _).drop
  exact modifyPager_bind (g := id) (ret_same _).drop (fun _ => rfl) fun _ => rfl

theorem pager_playback_drop : Drop (pager_playback : ApiM α _) v := by
  unfold pager_playback
  refine answer_same.then (fun _ => .refl v) fun a => ?_
  split
  · exact modifyPager_bind (g := id) (pager_end_transaction_drop _) (fun _ => rfl) fun _ => rfl
  · exact modifyPager_bind (g := id) (Ensures.throw (.refl v)) (fun _ => rfl) fun _ => rfl

theorem sqlite3PagerRollback_drop : Drop (sqlite3PagerRollback : ApiM α _) v := by
  unfold sqlite3PagerRollback
  refine get_bind fun s _ => ?_
  refine Ensures.ite (fun _ => (ret_same _).drop) fun _ => ?_
  refine Ensures.ite (fun _ => Ensures.pure (.refl v)) fun _ => ?_
  refine Ensures.ite (fun _ => walRollback_drop) fun _ => ?_
  refine Ensures.ite (fun _ => noJournalRollback_drop _) fun _ => ?_
  exact (result_drop pager_playback_drop).bind fun _ _ => (pager_error_same _).drop

theorem memoryRollback_drop (p : TxnPager α) : Drop (memoryRollback p) v := by
  unfold memoryRollback
  refine modifyPager_bind (g := id) ?_ (fun _ => rfl) fun _ => rfl
  refine (result_drop pager_playback_drop).bind fun _ v => ?_
  exact Same.drop (modifyPager_same (fun _ => rfl) fun _ => rfl)

theorem pagerUnlockAndRollback_ctl :
    Ensures BtreeliteDb.ctl (pagerUnlockAndRollback : ApiM α _) v
      (fun _ v' => v' = { v with depth := 0 }) fun _ _ => False := by
  unfold pagerUnlockAndRollback
  refine get_bind fun s _ => ?_
  simp only []
  refine Ensures.bind (result_ctl (Q := v.Drops) ?_) fun _ v₁ hv₁ => ?_
  · refine Ensures.ite (fun _ => ?_) fun _ => ?_
    · exact Ensures.ite (fun _ => sqlite3PagerRollback_drop) fun _ => pager_end_transaction_drop _
    · exact Ensures.ite (fun _ => memoryRollback_drop _) fun _ => Ensures.pure (.refl v)
  · have hm : Ensures BtreeliteDb.ctl (modifyPager TxnPager.unlock : ApiM α _) v₁
        (fun _ v' => v' = { v₁ with depth := 0 }) fun _ _ => False := by
      rintro s rfl
      rfl
    refine hm.post fun _ v' hv => ?_
    rcases hv₁ with rfl | rfl
    · exact hv
    · exact hv

theorem sqlite3PagerWrite_same : Same (sqlite3PagerWrite : ApiM α _) v := by
  unfold sqlite3PagerWrite
  refine tick_same.then (fun _ => rfl) fun _ => ?_
  exact modifyPager_same (fun _ => rfl) fun _ => rfl

theorem sqlite3PagerBegin_same : Same (sqlite3PagerBegin : ApiM α _) v := by
  unfold sqlite3PagerBegin
  refine get_bind fun s _ => ?_
  simp only []
  split
  · exact Ensures.throw rfl
  · refine Ensures.ite (fun _ => ?_) fun _ => Ensures.pure rfl
    refine tick_same.then (fun _ => rfl) fun _ => ?_
    exact modifyPager_same (fun _ => rfl) fun _ => rfl

theorem sqlite3PagerCommitPhaseOne_same : Same (sqlite3PagerCommitPhaseOne : ApiM α _) v := by
  unfold sqlite3PagerCommitPhaseOne
  refine get_bind fun s _ => ?_
  simp only []
  split
  · exact Ensures.throw rfl
  · refine Ensures.ite (fun _ => Ensures.pure rfl) fun _ => ?_
    refine answer_same.then (fun _ => rfl) fun a => ?_
    refine (ret_same _).then (fun _ => rfl) fun _ => ?_
    exact Ensures.ite (fun _ => modifyPager_same (fun _ => rfl) fun _ => rfl) fun _ =>
      modifyPager_same (fun _ => rfl) fun _ => rfl

theorem sqlite3PagerCommitPhaseTwo_drop : Drop (sqlite3PagerCommitPhaseTwo : ApiM α _) v := by
  unfold sqlite3PagerCommitPhaseTwo
  refine get_bind fun s _ => ?_
  split
  · exact Ensures.throw (.refl v)
  · exact (result_drop (pager_end_transaction_drop _)).bind fun _ _ => (pager_error_same _).drop

theorem sqlite3PagerWalCallback_ctl :
    Ensures BtreeliteDb.ctl (sqlite3PagerWalCallback : ApiM α _) v (fun _ v' => v' = v)
      fun _ _ => False := by
  unfold sqlite3PagerWalCallback
  refine get_bind fun s _ => ?_
  refine Ensures.ite (fun _ => ?_) fun _ => Ensures.pure rfl
  exact modifyPager_bind (g := id) (Ensures.pure rfl) (fun _ => rfl) fun _ => rfl

end Api

end Btreelite
