import Btreelite.ApiCount

/-!
# What the calls do to the counts

A transaction that ends takes the savepoints of the pager with it, because it unlocks the pager.
-/

namespace Btreelite

open Prog
open Pager (SavepointOp)

namespace Ctl

/-- After `unlockBtreeIfUnused`. -/
def unlocked (v : Ctl) : Ctl :=
  if v.inTrans = .none ∧ v.pPage1 = true then { v with pPage1 := false, depth := 0 } else v

/-- After `btreeEndTransaction`. -/
def ended (v : Ctl) : Ctl := unlocked { v with inTrans := .none }

/-- What the locks of a begin may do. -/
structure Locks (v v' : Ctl) : Prop where
  page1 : v.inTrans ≠ .none → v.pPage1 = true → v'.pPage1 = true
  eq : ∃ d, v' = { v with pPage1 := v'.pPage1, depth := d } ∧ (d = v.depth ∨ d = 0)

theorem Locks.refl (v : Ctl) : v.Locks v := ⟨fun _ h => h, v.depth, rfl, .inl rfl⟩

theorem Locks.inTrans {v v' : Ctl} (h : v.Locks v') : v'.inTrans = v.inTrans := by
  obtain ⟨-, d, hv, -⟩ := h
  rw [hv]

theorem Locks.trans {v v' v'' : Ctl} (h : v.Locks v') (h' : v'.Locks v'') : v.Locks v'' := by
  have hp : v.inTrans ≠ .none → v.pPage1 = true → v''.pPage1 = true := fun hn hp =>
    h'.page1 (h.inTrans ▸ hn) (h.page1 hn hp)
  obtain ⟨-, d, hv, hd⟩ := h
  obtain ⟨-, d', hv', hd'⟩ := h'
  have hd1 : v'.depth = d := by rw [hv]
  refine ⟨hp, d', ?_, ?_⟩
  · rw [hv', hv]
  · rw [hd1] at hd'
    rcases hd' with rfl | rfl
    · exact hd
    · exact .inr rfl

theorem locks_page1 (v : Ctl) : v.Locks { v with pPage1 := true } :=
  ⟨fun _ _ => rfl, v.depth, rfl, .inl rfl⟩

theorem locks_unlocked (v : Ctl) : v.Locks v.unlocked := by
  unfold unlocked
  split_ifs with h
  · exact ⟨fun hn => absurd h.1 hn, 0, rfl, .inr rfl⟩
  · exact .refl v

/-- After a begin that returned. -/
def begun (wrflag : ℕ) (v : Ctl) : Ctl :=
  if wrflag = 0 then { v with inTrans := .read }
  else { v with inTrans := .write, depth := max v.depth v.nSavepoint }

/-- What opening savepoints may do before it fails. -/
def Grows (v v' : Ctl) : Prop :=
  ∃ k, (k = 0 ∨ v.depth + k < v.nSavepoint) ∧ v' = { v with depth := v.depth + k }

/-- What a begin may do before it fails: it locks, and it may have become a writer. -/
def BeginFails (wrflag : ℕ) (v v' : Ctl) : Prop :=
  v.Locks v' ∨ ∃ v₁, v.Locks v₁ ∧ v₁.pPage1 = true ∧ wrflag ≠ 0 ∧
    Grows { v₁ with inTrans := .write } v'

/-- After a commit or a rollback that returned. -/
def Ends (v v' : Ctl) : Prop :=
  (v.inTrans = .none ∧ v' = v) ∨ ∃ v₁, v.Drops v₁ ∧ v' = v₁.ended

end Ctl

namespace Api

variable {α : Type} {v : Ctl}

theorem unlockBtreeIfUnused_ctl :
    Ensures BtreeliteDb.ctl (unlockBtreeIfUnused : ApiM α _) v (fun _ v' => v' = v.unlocked)
      fun _ _ => False := by
  unfold unlockBtreeIfUnused
  refine get_bind fun s hs => ?_
  have hc : (s.inTrans = .none ∧ s.pPage1 = true) ↔ (v.inTrans = .none ∧ v.pPage1 = true) := by
    rw [← hs]
    rfl
  unfold Ctl.unlocked
  refine Ensures.ite (fun h => ?_) fun h => ?_
  · rw [if_pos (hc.1 h)]
    have hset : Ensures BtreeliteDb.ctl (set { s with pPage1 := false } : ApiM α _) v
        (fun _ v' => v' = { v with pPage1 := false }) fun _ _ => False := by
      rintro s' -
      rw [← hs]
      rfl
    refine Ensures.bind hset fun _ v₁ hv₁ => ?_
    subst hv₁
    exact pagerUnlockAndRollback_ctl
  · rw [if_neg (mt hc.2 h)]
    exact Ensures.pure rfl

theorem lockBtree_ctl :
    Ensures BtreeliteDb.ctl (lockBtree : ApiM α _) v (fun _ v' => v' = { v with pPage1 := true })
      fun _ v' => v' = v := by
  unfold lockBtree
  refine answer_same.then (fun _ => rfl) fun a => ?_
  refine (ret_same _).then (fun _ => rfl) fun _ => ?_
  exact modify_ctl (g := fun v => { v with pPage1 := true }) fun _ => rfl

theorem newDatabase_same : Same (newDatabase : ApiM α _) v := by
  unfold newDatabase
  refine get_bind fun s _ => ?_
  refine Ensures.ite (fun _ => Ensures.pure rfl) fun _ => ?_
  refine sqlite3PagerWrite_same.then (fun _ => rfl) fun _ => ?_
  exact modify_same fun _ => rfl

theorem lockIfNeeded_ctl :
    Ensures BtreeliteDb.ctl (lockIfNeeded : ApiM α _) v
      (fun _ v' => v' = { v with pPage1 := true }) fun _ v' => v' = v := by
  unfold lockIfNeeded
  refine get_bind fun s hs => ?_
  refine Ensures.ite (fun _ => lockBtree_ctl) fun h => Ensures.pure ?_
  have hp : v.pPage1 = true := by
    rw [← hs]
    exact Bool.eq_true_of_not_eq_false h
  rw [← hp]

/-- What holds of a begin that returned, and of one that did not. -/
abbrev Locked (m : ApiM α Unit) (v : Ctl) : Prop :=
  Ensures BtreeliteDb.ctl m v (fun _ v' => v.Locks v' ∧ v'.pPage1 = true) fun _ => v.Locks

theorem beginAttempt_locked (wrflag : ℕ) : Locked (beginAttempt wrflag : ApiM α _) v := by
  unfold beginAttempt
  refine (lockIfNeeded_ctl.mono (fun _ _ => id) fun _ v' hv => hv ▸ .refl v).bind fun _ v₁ hv₁ => ?_
  subst hv₁
  have hl := v.locks_page1
  refine Ensures.ite (fun _ => Ensures.pure ⟨hl, rfl⟩) fun _ => ?_
  refine get_bind fun s _ => ?_
  refine Ensures.ite (fun _ => Ensures.throw hl) fun _ => ?_
  refine sqlite3PagerBegin_same.then (fun _ => hl) fun _ => ?_
  exact newDatabase_same.mono (fun _ v' hv => hv ▸ ⟨hl, rfl⟩) fun _ v' hv => hv ▸ hl

theorem Locked.onError {m : ApiM α Unit} (h : Locked m v) :
    Locked (onError m unlockBtreeIfUnused) v := by
  intro s hs
  refine wp_onError.2 ((h s hs).mono (fun _ _ => id) fun e s' hl => ?_)
  have hu := unlockBtreeIfUnused_ctl s' rfl
  exact hu.mono (fun _ s'' hv => hl.trans (hv ▸ Ctl.locks_unlocked _)) fun _ _ => False.elim

theorem beginLoop_locked (wrflag : ℕ) :
    ∀ (n : ℕ) (v : Ctl), Locked (beginLoop wrflag n : ApiM α _) v
  | 0, v => (beginAttempt_locked wrflag).onError
  | n + 1, v => by
    unfold beginLoop
    -- a result of none comes with the page, and any other with a failed round
    have hr : Ensures BtreeliteDb.ctl
        (result (onError (beginAttempt wrflag) unlockBtreeIfUnused) : ApiM α _) v
        (fun rc v' => v.Locks v' ∧ (rc = none → v'.pPage1 = true)) fun _ => v.Locks := by
      intro s hs
      have hw := (beginAttempt_locked wrflag).onError s hs
      unfold wp at hw ⊢
      unfold result
      cases hm : onError (beginAttempt wrflag) unlockBtreeIfUnused s with
      | ok _ s' =>
        rw [hm] at hw
        exact ⟨hw.1, fun _ => hw.2⟩
      | error rc s' =>
        rw [hm] at hw
        exact ⟨hw, nofun⟩
    refine hr.bind fun rc v₁ ⟨hl, hp⟩ => ?_
    refine get_bind fun s _ => ?_
    refine Ensures.ite (fun _ => ?_) fun _ => ?_
    · exact (beginLoop_locked wrflag n v₁).mono (fun _ _ h => ⟨hl.trans h.1, h.2⟩) fun _ _ => hl.trans
    · cases rc with
      | none => exact Ensures.pure ⟨hl, hp rfl⟩
      | some rc => exact Ensures.throw hl

theorem correctNPage_same : Same (correctNPage : ApiM α _) v := by
  unfold correctNPage
  refine get_bind fun s _ => ?_
  refine Ensures.ite (fun _ => Ensures.pure rfl) fun _ => ?_
  refine sqlite3PagerWrite_same.then (fun _ => rfl) fun _ => ?_
  exact modify_same fun _ => rfl

theorem openSavepoint_grows :
    Ensures BtreeliteDb.ctl (sqlite3PagerOpenSavepoint v.nSavepoint : ApiM α _) v
      (fun _ v' => v' = { v with depth := max v.depth v.nSavepoint }) fun _ => v.Grows :=
  (sqlite3PagerOpenSavepoint_ctl v.nSavepoint).mono (fun _ _ => id) fun _ _ ⟨k, hk, hv⟩ =>
    ⟨k, .inr hk, hv⟩

theorem btreeBeginTrans_ctl (wrflag nBusy : ℕ) :
    Ensures BtreeliteDb.ctl (btreeBeginTrans wrflag nBusy : ApiM α _) v
      (fun _ v' => ∃ v₁, v.Locks v₁ ∧ v₁.pPage1 = true ∧ v' = v₁.begun wrflag)
      fun _ => v.BeginFails wrflag := by
  unfold btreeBeginTrans
  refine get_bind fun s hs => ?_
  have hn : s.nSavepoint = v.nSavepoint := congrArg Ctl.nSavepoint hs
  rw [hn]
  refine Ensures.ite (fun _ => Ensures.throw (.inl (.refl v))) fun _ => ?_
  refine modify_bind (g := id) ?_ fun _ => rfl
  refine Ensures.bind ((beginLoop_locked wrflag nBusy v).mono (fun _ _ => id) fun _ _ => .inl)
    fun _ v₁ ⟨hl, hp⟩ => ?_
  refine modify_bind (g := fun v => { v with inTrans := if wrflag = 0 then .read else .write }) ?_
    fun _ => rfl
  have hn₁ : v₁.nSavepoint = v.nSavepoint := by
    obtain ⟨-, d, hv, -⟩ := hl
    rw [hv]
  unfold transBegun
  refine Ensures.ite (fun h => Ensures.pure ⟨v₁, hl, hp, ?_⟩) fun h => ?_
  · simp only [Ctl.begun, if_pos h]
  · simp only [if_neg h]
    refine correctNPage_same.then (fun _ => .inr ⟨v₁, hl, hp, h, 0, .inl rfl, rfl⟩) fun _ => ?_
    rw [← hn₁]
    refine (openSavepoint_grows (v := { v₁ with inTrans := .write })).mono (fun _ v' hv => ⟨v₁, hl, hp, ?_⟩) fun _ v' hv => .inr ⟨v₁, hl, hp, h, hv⟩
    rw [hv, Ctl.begun, if_neg h]

theorem sqlite3BtreeBeginTrans_ctl (wrflag nBusy : ℕ) :
    Ensures BtreeliteDb.ctl (sqlite3BtreeBeginTrans wrflag nBusy : ApiM α _) v
      (fun _ v' =>
        if v.inTrans = .none ∨ (v.inTrans = .read ∧ wrflag ≠ 0) then
          ∃ v₁, v.Locks v₁ ∧ v₁.pPage1 = true ∧ v' = v₁.begun wrflag
        else v' = if wrflag = 0 then v else { v with depth := max v.depth v.nSavepoint })
      fun _ v' =>
        if v.inTrans = .none ∨ (v.inTrans = .read ∧ wrflag ≠ 0) then v.BeginFails wrflag v'
        else v.Grows v' := by
  unfold sqlite3BtreeBeginTrans
  refine get_bind fun s hs => ?_
  have hn : s.nSavepoint = v.nSavepoint := congrArg Ctl.nSavepoint hs
  have ht : s.inTrans = v.inTrans := congrArg Ctl.inTrans hs
  rw [hn, ht]
  refine Ensures.ite (fun h => ?_) fun h => ?_
  · simp only [if_pos h]
    exact btreeBeginTrans_ctl wrflag nBusy
  · simp only [if_neg h]
    refine Ensures.ite (fun h0 => Ensures.pure ?_) fun h0 => ?_
    · rw [if_pos h0]
    · simp only [if_neg h0]
      exact openSavepoint_grows

theorem btreeEndTransaction_ctl :
    Ensures BtreeliteDb.ctl (btreeEndTransaction : ApiM α _) v (fun _ v' => v' = v.ended)
      fun _ _ => False := by
  unfold btreeEndTransaction
  exact modify_bind (g := fun v => { v with inTrans := .none }) unlockBtreeIfUnused_ctl fun _ => rfl

theorem sqlite3BtreeCommitPhaseOne_ctl :
    Ensures BtreeliteDb.ctl (sqlite3BtreeCommitPhaseOne : ApiM α _) v (fun _ v' => v' = v)
      fun _ v' => v.inTrans = .write ∧ v' = v := by
  unfold sqlite3BtreeCommitPhaseOne
  refine get_bind fun s hs => ?_
  have ht : s.inTrans = v.inTrans := congrArg Ctl.inTrans hs
  refine Ensures.ite (fun h => ?_) fun _ => Ensures.pure rfl
  exact sqlite3PagerCommitPhaseOne_same.mono (fun _ _ => id) fun _ _ hv => ⟨ht.symm.trans h, hv⟩

/-- A commit ends the transaction, unless a call for a writer fails. -/
theorem sqlite3BtreeCommitPhaseTwo_ctl :
    Ensures BtreeliteDb.ctl (sqlite3BtreeCommitPhaseTwo : ApiM α _) v (fun _ => v.Ends)
      fun _ v' => v.inTrans = .write ∧ v.Drops v' := by
  unfold sqlite3BtreeCommitPhaseTwo
  refine get_bind fun s hs => ?_
  have ht : s.inTrans = v.inTrans := congrArg Ctl.inTrans hs
  refine Ensures.ite (fun h => Ensures.pure (.inl ⟨ht.symm.trans h, rfl⟩)) fun _ => ?_
  have hw : Ensures BtreeliteDb.ctl (commitWrite : ApiM α _) v (fun _ => v.Drops)
      fun _ v' => v.inTrans = .write ∧ v.Drops v' := by
    unfold commitWrite
    refine get_bind fun s hs => ?_
    have ht : s.inTrans = v.inTrans := congrArg Ctl.inTrans hs
    refine Ensures.ite (fun h => ?_) fun _ => Ensures.pure (.refl v)
    exact sqlite3PagerCommitPhaseTwo_drop.mono (fun _ _ => id) fun _ _ hd => ⟨ht.symm.trans h, hd⟩
  refine hw.bind fun _ v₁ hv₁ => ?_
  exact btreeEndTransaction_ctl.mono (fun _ v' hv => .inr ⟨v₁, hv₁, hv⟩) fun _ _ => False.elim

theorem sqlite3BtreeCommit_ctl :
    Ensures BtreeliteDb.ctl (sqlite3BtreeCommit : ApiM α _) v (fun _ => v.Ends)
      fun _ v' => v.inTrans = .write ∧ v.Drops v' := by
  unfold sqlite3BtreeCommit
  refine Ensures.bind (sqlite3BtreeCommitPhaseOne_ctl.mono (fun _ _ => id) fun _ v' h =>
    ⟨h.1, .inl h.2⟩) fun _ v' hv => ?_
  subst hv
  exact sqlite3BtreeCommitPhaseTwo_ctl

/-- A result is taken of a program that changes nothing. -/
theorem result_tick {E : Rc → Ctl → Prop} :
    Ensures BtreeliteDb.ctl (result tick : ApiM α _) v (fun _ v' => v' = v) E :=
  result_ctl tick_same

theorem refreshNPage_ctl :
    Ensures BtreeliteDb.ctl (refreshNPage : ApiM α _) v (fun _ v' => v' = v) fun _ _ => False := by
  unfold refreshNPage
  refine Ensures.bind result_tick fun rc v₁ hv₁ => ?_
  subst hv₁
  refine Ensures.ite (fun _ => ?_) fun _ => Ensures.pure rfl
  exact fun s hs => hs

theorem rollbackWrite_drop :
    Ensures BtreeliteDb.ctl (rollbackWrite : ApiM α _) v (fun _ => v.Drops) fun _ _ => False := by
  unfold rollbackWrite
  refine get_bind fun s _ => ?_
  refine Ensures.ite (fun _ => ?_) fun _ => Ensures.pure (.refl v)
  refine Ensures.bind (result_ctl sqlite3PagerRollback_drop) fun rc2 v₁ hv₁ => ?_
  refine refreshNPage_ctl.bind fun _ v₂ hv₂ => ?_
  subst hv₂
  exact Ensures.pure hv₁

/-- A rollback ends the transaction, also when it returns an error. -/
theorem sqlite3BtreeRollback_ctl :
    Ensures BtreeliteDb.ctl (sqlite3BtreeRollback : ApiM α _) v
      (fun _ v' => ∃ v₁, v.Drops v₁ ∧ v' = v₁.ended)
      fun _ v' => ∃ v₁, v.Drops v₁ ∧ v' = v₁.ended := by
  unfold sqlite3BtreeRollback
  refine Ensures.bind result_tick fun rc v₁ hv₁ => ?_
  subst hv₁
  refine Ensures.bind (rollbackWrite_drop.mono (fun _ _ => id) fun _ _ => False.elim)
    fun rc2 v₁ hv₁ => ?_
  refine Ensures.bind (btreeEndTransaction_ctl.mono (fun _ _ => id) fun _ _ => False.elim)
    fun _ v₂ hv₂ => ?_
  exact (ret_same _).mono (fun _ v' hv => ⟨v₁, hv₁, hv.trans hv₂⟩) fun _ v' hv =>
    ⟨v₁, hv₁, hv.trans hv₂⟩

/-- The pager keeps the savepoints that the call names, and those it keeps may be fewer than the
API counts when the call fails. -/
theorem sqlite3BtreeSavepoint_ctl (op : SavepointOp) (iSavepoint : ℤ) :
    Ensures BtreeliteDb.ctl (sqlite3BtreeSavepoint op iSavepoint : ApiM α _) v
      (fun _ v' => v' = if v.inTrans = .write then { v with depth := v.kept op iSavepoint } else v)
      fun _ v' => v' = v ∨ v' = { v with depth := v.kept op iSavepoint } := by
  unfold sqlite3BtreeSavepoint
  refine get_bind fun s hs => ?_
  have ht : s.inTrans = v.inTrans := congrArg Ctl.inTrans hs
  rw [ht]
  refine Ensures.ite (fun h => ?_) fun h => Ensures.pure (if_neg h).symm
  rw [if_pos h]
  have hc : Same (saveAllCursors op : ApiM α _) v := by
    unfold saveAllCursors
    exact Ensures.ite (fun _ => tick_same) fun _ => Ensures.pure rfl
  refine hc.then (fun _ => .inl rfl) fun _ => ?_
  refine Ensures.bind (sqlite3PagerSavepoint_ctl op iSavepoint) fun _ v₁ hv₁ => ?_
  subst hv₁
  refine modify_bind (g := id) ?_ fun s => ?_
  · refine newDatabase_same.then (fun _ => .inr rfl) fun _ => ?_
    exact fun s hs => hs
  · split_ifs <;> rfl

/-! ## The hook -/

theorem sqlite3WalDefaultHook_same (h : v.aDb = false) (pClientData : ℕ) (nFrame : ℤ) :
    Ensures BtreeliteDb.ctl (sqlite3WalDefaultHook pClientData nFrame : ApiM α _) v
      (fun _ v' => v' = v) fun _ _ => False := by
  unfold sqlite3WalDefaultHook
  refine Ensures.ite (fun _ => ?_) fun _ => Ensures.pure rfl
  refine get_bind fun s hs => ?_
  have hd : s.aDb = false := (congrArg Ctl.aDb hs).trans h
  rw [hd]
  exact fun s hs => hs

theorem btreeliteWalCallback_same (h : v.aDb = false) :
    Ensures BtreeliteDb.ctl (btreeliteWalCallback : ApiM α _) v (fun _ v' => v' = v)
      fun _ _ => False := by
  unfold btreeliteWalCallback
  refine Ensures.bind sqlite3PagerWalCallback_ctl fun nEntry v₁ hv₁ => ?_
  subst hv₁
  refine get_bind fun s _ => ?_
  rcases s.xWalCallback with _ | pWalArg
  · exact Ensures.pure rfl
  · exact Ensures.ite (fun _ => sqlite3WalDefaultHook_same h _ _) fun _ => Ensures.pure rfl

end Api

end Btreelite
