import Btreelite.WalRecover

/-!
# Runs on the wal-index

Writers append frames, undo, save their place and go back to it, restart the log, commit, and die;
recoveries rebuild the index from the file. The pages of the frames of the current log are kept
beside the memory, and the shared header says how many of them are committed.
-/

namespace Btreelite

open Prog

/-- The part of a writer's handle that its frames change: `hdr.mxFrame`, `nCkpt`, and the arrays
that `sqlite3WalSavepoint` filled. -/
structure WalWriter where
  mxFrame : ℕ
  nCkpt : ℕ
  savepoints : List (ℕ × ℕ)

/-- The wal-index, the header in it, the pages of the frames, and the writer. -/
structure WalState where
  apWiData : WalIndex
  mxFrame : ℕ
  log : List ℕ
  writer : Option WalWriter

/-- The end of `walFrames`: an entry for every frame it appended. -/
def appendFrames (mxFrame : ℕ) : ℕ → List ℕ → ShmM Unit
  | _, [] => pure ()
  | iFrame, pgno :: pgnos => do
    walIndexAppend mxFrame (iFrame + 1) pgno
    appendFrames mxFrame (iFrame + 1) pgnos

/-- `sqlite3WalUndo`, where the shared header has `live`. -/
def sqlite3WalUndo (live : ℕ) (pWal : WalWriter) : ShmM WalWriter := do
  let iMax := pWal.mxFrame
  let pWal := { pWal with mxFrame := live }
  if iMax ≠ pWal.mxFrame then walCleanupHash pWal.mxFrame else pure ()
  return pWal

def sqlite3WalSavepoint (pWal : WalWriter) : ℕ × ℕ := (pWal.mxFrame, pWal.nCkpt)

/-- `aWalData` as `sqlite3WalSavepointUndo` corrects it after a log restart. -/
def savepointData (nCkpt : ℕ) (aWalData : ℕ × ℕ) : ℕ × ℕ :=
  if aWalData.2 ≠ nCkpt then (0, nCkpt) else aWalData

def sqlite3WalSavepointUndo (pWal : WalWriter) (aWalData : ℕ × ℕ) : ShmM WalWriter :=
  let aWalData := savepointData pWal.nCkpt aWalData
  if aWalData.1 < pWal.mxFrame then do
    let pWal := { pWal with mxFrame := aWalData.1 }
    walCleanupHash pWal.mxFrame
    return pWal
  else pure pWal

/-- `walRestartHdr`. -/
def walRestartHdr (pWal : WalWriter) : WalWriter :=
  { pWal with nCkpt := pWal.nCkpt + 1, mxFrame := 0 }

/-- What a writer does to the log. The pages are those of the frames that a commit or a spill
appends. -/
inductive WriteOp
  | frames (pgnos : List ℕ) (isCommit : Bool)
  | undo
  | savepoint
  | savepointUndo (i : ℕ)
  | release (i : ℕ)
  | restart

inductive WalOp
  | beginWrite (nCkpt : ℕ)
  | write (op : WriteOp)
  | endWrite
  | recover (file : List UInt8) (aPrivate : WalHashLoc) (busy : ℕ → Bool) (pWal : Wal)
      (info : WalCkptInfo)

/-- What an operation leaves besides the memory: the shared `mxFrame`, the pages of the frames, and
the writer. -/
abbrev WalOutcome := ℕ × List ℕ × Option WalWriter

def WalState.ofOutcome (w : WalIndex) (x : WalOutcome) : WalState := ⟨w, x.1, x.2.1, x.2.2⟩

/-- The operations of the writer `pWal`. The pager drops its savepoints with a commit. -/
def WalState.write (s : WalState) (pWal : WalWriter) : WriteOp → ShmM WalOutcome
  | .frames pgnos isCommit => do
    appendFrames pWal.mxFrame pWal.mxFrame pgnos
    let mxFrame := pWal.mxFrame + pgnos.length
    if isCommit then
      return (mxFrame, s.log ++ pgnos, some { pWal with mxFrame, savepoints := [] })
    else
      return (s.mxFrame, s.log ++ pgnos, some { pWal with mxFrame })
  | .undo => do
    let pWal ← sqlite3WalUndo s.mxFrame pWal
    return (s.mxFrame, s.log.take pWal.mxFrame, some pWal)
  | .savepoint =>
    let savepoints := pWal.savepoints ++ [sqlite3WalSavepoint pWal]
    pure (s.mxFrame, s.log, some { pWal with savepoints })
  | .savepointUndo i =>
    match pWal.savepoints[i]? with
    | none => pure (s.mxFrame, s.log, some pWal)
    | some aWalData => do
      let savepoints := pWal.savepoints.take i ++ [savepointData pWal.nCkpt aWalData]
      let pWal ← sqlite3WalSavepointUndo pWal aWalData
      return (s.mxFrame, s.log.take pWal.mxFrame, some { pWal with savepoints })
  | .release i => pure (s.mxFrame, s.log, some { pWal with savepoints := pWal.savepoints.take i })
  | .restart => pure (0, [], some (walRestartHdr pWal))

def WalState.exec (s : WalState) : WalOp → ShmM WalOutcome
  | .beginWrite nCkpt => pure (s.mxFrame, s.log, some ⟨s.mxFrame, nCkpt, []⟩)
  | .write op =>
    match s.writer with
    | none => pure (s.mxFrame, s.log, none)
    | some pWal => s.write pWal op
  | .endWrite => pure (s.mxFrame, s.log.take s.mxFrame, none)
  | .recover file aPrivate busy pWal info => do
    let (pWal, _) ← walIndexRecover file aPrivate busy pWal info
    return (pWal.hdr.mxFrame, walPgnos file pWal.hdr.mxFrame, none)

/-- When an operation can start: there is one writer at a time, it writes pages from `1` on, and
recovery reads a file that holds the committed frames. -/
def WalOp.Enabled (s : WalState) : WalOp → Prop
  | .beginWrite _ => s.writer = none
  | .write op => s.writer ≠ none ∧
      match op with
      | .frames pgnos _ => ∀ p ∈ pgnos, p ≠ 0
      | _ => True
  | .endWrite => s.writer ≠ none
  | .recover file _ _ _ _ => s.writer = none ∧
      (WalHdrOk file → get4byte ((file.take WAL_HDRSIZE).drop 4) = WAL_MAX_VERSION) ∧
      (WalHdrOk file → (file.length - WAL_HDRSIZE) / (walPageSize file + WAL_FRAME_HDRSIZE)
        < 2 ^ 32 - HASHTABLE_NPAGE) ∧
      ∃ v, WalGood file v ∧ s.mxFrame ≤ v ∧ s.log.take s.mxFrame = walPgnos file s.mxFrame

/-- The states of a wal-index, from any shared memory on. A connection may die while an operation
runs, after any of its stores; the frames it did not commit are then in the log no more. -/
inductive WalReachable : WalState → Prop
  | fresh (w : WalIndex) : WalReachable ⟨w, 0, [], none⟩
  | op {s : WalState} {op : WalOp} {x : WalOutcome} {w : WalIndex} {past : List WalIndex}
      (hs : WalReachable s) (he : op.Enabled s)
      (hrun : s.exec op ⟨s.apWiData, []⟩ = .ok x ⟨w, past⟩) : WalReachable (.ofOutcome w x)
  | die {s : WalState} {op : WalOp} {x : WalOutcome} {w w' : WalIndex} {past : List WalIndex}
      (hs : WalReachable s) (he : op.Enabled s)
      (hrun : s.exec op ⟨s.apWiData, []⟩ = .ok x ⟨w, past⟩) (hw : w' ∈ w :: past) :
      WalReachable ⟨w', s.mxFrame, s.log.take s.mxFrame, none⟩

/-! ## The invariant -/

structure WalState.Inv (s : WalState) : Prop where
  indexes : Indexes s.apWiData s.log
  committed : s.mxFrame ≤ s.log.length
  idle : s.writer = none → s.mxFrame = s.log.length
  mxFrame : ∀ pWal ∈ s.writer, pWal.mxFrame = s.log.length
  /-- No savepoint lies among the committed frames. -/
  savepoints : ∀ pWal ∈ s.writer, ∀ d ∈ pWal.savepoints,
    d.2 ≤ pWal.nCkpt ∧ s.mxFrame ≤ (savepointData pWal.nCkpt d).1

section Runs

variable {s : WalState} {w : WalIndex} {log : List ℕ} {pWal : WalWriter} {op : WalOp}

theorem appendFrames_stays {mxFrame c : ℕ} :
    ∀ (pgnos log : List ℕ) (w : WalIndex), c ≤ log.length → Indexes w log →
      (mxFrame = log.length ∨ Trimmed w log) → (∀ p ∈ pgnos, p ≠ 0) →
      Stays (Indexes · (log.take c)) (appendFrames mxFrame log.length pgnos) w fun _ w' =>
        Indexes w' (log ++ pgnos)
  | [], log, w, _, hw, _, _ => Stays.pure (by rwa [List.append_nil])
  | p :: pgnos, log, w, hc, hw, hmx, hp => by
    unfold appendFrames
    have happ := walIndexAppend_stays hw hmx (hp p (List.mem_cons_self ..))
    refine (happ.weaken fun _ hx => hx.take c).bind fun _ w' ⟨hw', ht⟩ => ?_
    have hlen : (log ++ [p]).length = log.length + 1 := List.length_append
    have hrest := @appendFrames_stays mxFrame c pgnos (log ++ [p]) w' (by omega) hw' (.inr ht)
      fun q hq => hp q (List.mem_cons_of_mem p hq)
    rw [hlen, List.take_append_of_le_length hc, List.append_assoc] at hrest
    exact hrest

/-- An entry for a frame takes a store. -/
theorem walIndexAppend_past (mxFrame iFrame iPage : ℕ) (s : Shm) :
    wp (walIndexAppend mxFrame iFrame iPage) (fun _ s' => s'.past ≠ []) (fun _ _ => True) s := by
  unfold walIndexAppend
  refine wp_bind.2 (wp.true.post fun _ s₁ _ => wp_bind.2 (wp.true.post fun _ s₂ _ => ?_))
  unfold writeEntry
  refine wp_bind.2 (wp.true.post fun b s₃ _ => ?_)
  split
  · exact trivial
  · exact wp_bind.2 (wp.true.post fun _ s₄ _ => wp_modify.2 (List.cons_ne_nil _ _))

theorem appendFrames_past {mxFrame : ℕ} :
    ∀ (pgnos : List ℕ) (iFrame : ℕ) (s : Shm), s.past ≠ [] ∨ pgnos ≠ [] →
      wp (appendFrames mxFrame iFrame pgnos) (fun _ s' => s'.past ≠ []) (fun _ _ => True) s
  | [], _, s, h => h.resolve_right fun hp => hp rfl
  | p :: pgnos, iFrame, s, _ => by
    unfold appendFrames
    exact wp_bind.2 ((walIndexAppend_past ..).post fun _ s' hs' =>
      appendFrames_past pgnos _ s' (.inl hs'))

/-- Removing frames after the first `n`. -/
theorem cleanup_stays {n c : ℕ} (hw : Indexes w log) (hn : n ≤ log.length) (hc : c ≤ n) :
    Stays (Indexes · (log.take c)) (walCleanupHash n) w fun _ w' => Indexes w' (log.take n) := by
  have hclean := walCleanupHash_stays (hw.take n)
  rw [List.length_take_of_le hn] at hclean
  refine (hclean.weaken fun x hx => ?_).post fun _ _ h => h.1
  have := hx.take c
  rwa [List.take_take, Nat.min_eq_left hc] at this

theorem savepointData_idem (nCkpt : ℕ) (d : ℕ × ℕ) :
    savepointData nCkpt (savepointData nCkpt d) = savepointData nCkpt d := by
  unfold savepointData
  split_ifs with h h' <;> simp_all

/-- The outcome of an operation that only changes what the writer remembers. -/
theorem WalState.Inv.remember (hs : s.Inv) (hw : s.writer = some pWal) {p : WalWriter}
    (hmx : p.mxFrame = pWal.mxFrame)
    (hsp : ∀ d ∈ p.savepoints, d.2 ≤ p.nCkpt ∧ s.mxFrame ≤ (savepointData p.nCkpt d).1) :
    (WalState.ofOutcome s.apWiData (s.mxFrame, s.log, some p)).Inv where
  indexes := hs.indexes
  committed := hs.committed
  idle := fun h => absurd h (by simp [WalState.ofOutcome])
  mxFrame := by
    intro q hq
    obtain rfl := Option.some_inj.1 hq
    exact hmx.trans (hs.mxFrame pWal hw)
  savepoints := by
    intro q hq
    obtain rfl := Option.some_inj.1 hq
    exact hsp

/-- What an operation does to the state, and what the memories on its way index. -/
abbrev WalState.Keeps (s : WalState) (m : ShmM WalOutcome) : Prop :=
  Stays (Indexes · (s.log.take s.mxFrame)) m s.apWiData fun x w' =>
    (WalState.ofOutcome w' x).Inv ∧ Indexes w' (s.log.take s.mxFrame)

theorem WalState.Inv.frames (hs : s.Inv) (hw : s.writer = some pWal) {pgnos : List ℕ}
    (hp : ∀ p ∈ pgnos, p ≠ 0) (isCommit : Bool) :
    s.Keeps (s.write pWal (.frames pgnos isCommit)) := by
  have hmx := hs.mxFrame pWal hw
  have hsp := hs.savepoints pWal hw
  have happ := appendFrames_stays pgnos s.log s.apWiData hs.committed hs.indexes
    (.inl rfl) hp
  unfold WalState.write
  simp only [hmx]
  refine happ.bind fun _ w' hw' => ?_
  have htake : Indexes w' (s.log.take s.mxFrame) := by
    have := hw'.take s.mxFrame
    rwa [List.take_append_of_le_length hs.committed] at this
  have hlen : (s.log ++ pgnos).length = s.log.length + pgnos.length := List.length_append
  have hle := hs.committed
  refine Stays.ite (fun _ => Stays.pure ⟨?_, htake⟩) fun _ => Stays.pure ⟨?_, htake⟩
  · exact
      { indexes := hw'
        committed := hlen.ge
        idle := fun h => absurd h (by simp [WalState.ofOutcome])
        mxFrame := by
          intro q hq
          obtain rfl := Option.some_inj.1 hq
          exact hlen.symm
        savepoints := by
          intro q hq d hd
          obtain rfl := Option.some_inj.1 hq
          exact absurd hd (by simp) }
  · exact
      { indexes := hw'
        committed := by
          change s.mxFrame ≤ (s.log ++ pgnos).length
          omega
        idle := fun h => absurd h (by simp [WalState.ofOutcome])
        mxFrame := by
          intro q hq
          obtain rfl := Option.some_inj.1 hq
          exact hlen.symm
        savepoints := by
          intro q hq d hd
          obtain rfl := Option.some_inj.1 hq
          exact hsp d hd }

/-- The outcome of going back to the first `n` frames. -/
theorem WalState.truncate_inv {p : WalWriter} {n : ℕ} (hn : n ≤ s.log.length)
    (hc : s.mxFrame ≤ n) (hmx : p.mxFrame = n)
    (hsp : ∀ d ∈ p.savepoints, d.2 ≤ p.nCkpt ∧ s.mxFrame ≤ (savepointData p.nCkpt d).1)
    (hw : Indexes w (s.log.take n)) :
    (WalState.ofOutcome w (s.mxFrame, s.log.take n, some p)).Inv ∧
      Indexes w (s.log.take s.mxFrame) := by
  have hlen : (s.log.take n).length = n := List.length_take_of_le hn
  refine ⟨?_, ?_⟩
  · exact
      { indexes := hw
        committed := by
          change s.mxFrame ≤ (s.log.take n).length
          omega
        idle := fun h => absurd h (by simp [WalState.ofOutcome])
        mxFrame := by
          intro q hq
          obtain rfl := Option.some_inj.1 hq
          exact hmx.trans hlen.symm
        savepoints := by
          intro q hq
          obtain rfl := Option.some_inj.1 hq
          exact hsp }
  · have := hw.take s.mxFrame
    rwa [List.take_take, Nat.min_eq_left hc] at this

theorem sqlite3WalUndo_stays {live : ℕ} (hw : Indexes w log) (hl : live ≤ log.length) :
    Stays (Indexes · (log.take live)) (sqlite3WalUndo live pWal) w fun p w' =>
      p = { pWal with mxFrame := live } ∧ Indexes w' (log.take live) := by
  unfold sqlite3WalUndo
  refine Stays.ite (fun _ => ?_) fun _ => Stays.pure ⟨rfl, hw.take _⟩
  exact (cleanup_stays hw hl le_rfl).bind fun _ w' hw' => Stays.pure ⟨rfl, hw'⟩

/-- A savepoint that is not below frame `c` is gone back to without touching the frames up to
`c`. -/
theorem sqlite3WalSavepointUndo_stays {d : ℕ × ℕ} {c : ℕ} (hw : Indexes w log)
    (hmx : pWal.mxFrame = log.length) (hd : c ≤ (savepointData pWal.nCkpt d).1) :
    Stays (Indexes · (log.take c)) (sqlite3WalSavepointUndo pWal d) w fun p w' =>
      p.nCkpt = pWal.nCkpt ∧ p.mxFrame = min (savepointData pWal.nCkpt d).1 log.length ∧
        Indexes w' (log.take p.mxFrame) := by
  unfold sqlite3WalSavepointUndo
  refine Stays.ite (fun hlt => ?_) fun _ =>
    Stays.pure ⟨rfl, by omega, hw.take _⟩
  refine (cleanup_stays hw (by omega) hd).bind fun _ w' hw' => Stays.pure ⟨rfl, ?_, hw'⟩
  simp only []
  omega

theorem WalState.Inv.undo (hs : s.Inv) (hw : s.writer = some pWal) :
    s.Keeps (s.write pWal .undo) := by
  refine (sqlite3WalUndo_stays hs.indexes hs.committed).bind
    fun p w' ⟨hp, hw'⟩ => Stays.pure ?_
  subst hp
  exact WalState.truncate_inv hs.committed le_rfl rfl (hs.savepoints pWal hw) hw'

theorem WalState.Inv.savepointUndo (hs : s.Inv) (hw : s.writer = some pWal) (i : ℕ) :
    s.Keeps (s.write pWal (.savepointUndo i)) := by
  have hsp := hs.savepoints pWal hw
  unfold WalState.write
  cases hd : pWal.savepoints[i]? with
  | none =>
    simp only [hd]
    exact Stays.pure ⟨hs.remember hw rfl hsp, hs.indexes.take _⟩
  | some d =>
    simp only [hd]
    have hdd := hsp d (List.mem_of_getElem? hd)
    refine (sqlite3WalSavepointUndo_stays hs.indexes (hs.mxFrame pWal hw) hdd.2).bind
      fun p w' ⟨hn, hmin, hw'⟩ => Stays.pure ?_
    have hc := hs.committed
    refine WalState.truncate_inv (by omega) (by omega) rfl ?_ hw'
    intro d' hd'
    simp only [hn]
    rcases List.mem_append.1 hd' with hd' | hd'
    · exact hsp d' (List.mem_of_mem_take hd')
    · rw [List.mem_singleton.1 hd', savepointData_idem]
      refine ⟨?_, hdd.2⟩
      unfold savepointData
      split_ifs
      · exact le_rfl
      · exact hdd.1

theorem WalState.Inv.restart (hs : s.Inv) (hw : s.writer = some pWal) :
    s.Keeps (s.write pWal .restart) := by
  have hsp := hs.savepoints pWal hw
  refine Stays.pure ⟨?_, hs.indexes.take _⟩
  exact
    { indexes := Indexes.nil _
      committed := le_rfl
      idle := fun _ => rfl
      mxFrame := by
        intro q hq
        obtain rfl := Option.some_inj.1 hq
        rfl
      savepoints := by
        intro q hq d hd
        obtain rfl := Option.some_inj.1 hq
        exact ⟨(hsp d hd).1.trans (Nat.le_succ _), Nat.zero_le _⟩ }

theorem WalState.Inv.write (hs : s.Inv) (hw : s.writer = some pWal) {op : WriteOp}
    (he : (WalOp.write op).Enabled s) : s.Keeps (s.write pWal op) := by
  have hsp := hs.savepoints pWal hw
  cases op with
  | frames pgnos isCommit => exact hs.frames hw he.2 isCommit
  | undo => exact hs.undo hw
  | savepoint =>
    refine Stays.pure ⟨hs.remember hw rfl fun d hd => ?_, hs.indexes.take _⟩
    rcases List.mem_append.1 hd with hd | hd
    · exact hsp d hd
    · rw [List.mem_singleton.1 hd]
      refine ⟨le_rfl, ?_⟩
      simp only [sqlite3WalSavepoint, savepointData, ne_eq, not_true_eq_false, if_false,
        hs.mxFrame pWal hw]
      exact hs.committed
  | savepointUndo i => exact hs.savepointUndo hw i
  | release i =>
    exact Stays.pure ⟨hs.remember hw rfl fun d hd => hsp d (List.mem_of_mem_take hd),
      hs.indexes.take _⟩
  | restart => exact hs.restart hw

/-- The state between transactions. -/
theorem WalState.idle_inv {n : ℕ} (hn : n ≤ log.length) (hw : Indexes w (log.take n)) :
    (⟨w, n, log.take n, none⟩ : WalState).Inv where
  indexes := hw
  committed := (List.length_take_of_le hn).ge
  idle := fun _ => (List.length_take_of_le hn).symm
  mxFrame := fun _ hq => absurd hq (by simp)
  savepoints := fun _ hq => absurd hq (by simp)

/-- Every operation runs to its end, keeps the invariant, and passes only through memories that
index the committed frames. -/
theorem WalState.Inv.exec (hs : s.Inv) (he : op.Enabled s) : s.Keeps (s.exec op) := by
  cases op with
  | beginWrite nCkpt =>
    refine Stays.pure ⟨?_, hs.indexes.take _⟩
    exact
      { indexes := hs.indexes
        committed := hs.committed
        idle := fun h => absurd h (by simp [WalState.ofOutcome])
        mxFrame := by
          intro q hq
          obtain rfl := Option.some_inj.1 hq
          exact hs.idle he
        savepoints := by
          intro q hq d hd
          obtain rfl := Option.some_inj.1 hq
          exact absurd hd (by simp) }
  | write op =>
    obtain ⟨pWal, hw⟩ := Option.ne_none_iff_exists'.1 he.1
    unfold WalState.exec
    simp only [hw]
    exact hs.write hw he
  | endWrite =>
    exact Stays.pure ⟨WalState.idle_inv hs.committed (hs.indexes.take _), hs.indexes.take _⟩
  | recover file aPrivate busy pWal info =>
    obtain ⟨-, hver, hfew, v, hv, hle, hlog⟩ := he
    unfold WalState.exec WalState.Keeps
    have hbase := hs.indexes.take s.mxFrame
    rw [hlog] at hbase ⊢
    refine (walIndexRecover_stays hver hfew hv hle hbase).bind
      fun x w' ⟨hlatest, _, _, _, _, hw'⟩ => Stays.pure ⟨?_, ?_⟩
    · have hmx : x.1.hdr.mxFrame ≤ v := hv.latest_le hlatest
      have hinv : (⟨w', x.1.hdr.mxFrame, (walPgnos file v).take x.1.hdr.mxFrame, none⟩ :
          WalState).Inv :=
        WalState.idle_inv (by rwa [walPgnos_length]) (hw'.take _)
      rwa [walPgnos_take hmx] at hinv
    · have := hw'.take s.mxFrame
      rwa [walPgnos_take hle] at this

theorem WalReachable.inv (hs : WalReachable s) : s.Inv := by
  induction hs with
  | fresh w =>
    have hidle : (⟨w, 0, ([] : List ℕ).take 0, none⟩ : WalState).Inv :=
      WalState.idle_inv (Nat.zero_le _) (Indexes.nil w)
    exact hidle
  | op hs he hrun ih =>
    have := (ih.exec he []).of_ok hrun
    exact this.1.1
  | @die s op x w w' past hs he hrun hw ih =>
    obtain ⟨⟨_, hlast⟩, new, hpast, hnew⟩ := (ih.exec he []).of_ok hrun
    refine WalState.idle_inv ih.committed ?_
    rcases List.mem_cons.1 hw with rfl | hw
    · exact hlast
    · have hpast' : past = new := hpast.trans (List.append_nil new)
      exact hnew _ (hpast' ▸ hw)

end Runs

end Btreelite
