import Btreelite.WalSystem

/-!
# Snapshots and commits

A run shows when a connection began to read, what it read, and what was committed. Every read is of
the state committed when the transaction began, and the committed states follow one another.
-/

namespace Btreelite

open WalShared

variable {ι α : Type}

/-! ## What a run shows -/

/-- The state after the commits of a run. -/
def committed (d : DbState α) (es : List (ι × WalEvent α)) : DbState α :=
  es.foldl (fun d x => x.2.state d) d

/-- The committed state when the connection began to read, or when it last committed itself. -/
def IsSnapshot (d₀ : DbState α) (es : List (ι × WalEvent α)) (i : ι) (d : DbState α) : Prop :=
  ∃ es₁ e es₂, es = es₁ ++ (i, e) :: es₂ ∧ e.refreshes = true ∧
    (∀ e', (i, e') ∈ es₂ → e'.refreshes = false) ∧ d = committed d₀ (es₁ ++ [(i, e)])

/-- The connection has begun to write and has not ended. -/
def InWrite (es : List (ι × WalEvent α)) (i : ι) : Prop :=
  ∃ es₁ es₂, es = es₁ ++ (i, .beginWrite none) :: es₂ ∧ (i, .endWrite) ∉ es₂

section Events

variable {d₀ d : DbState α} {es : List (ι × WalEvent α)} {i j : ι} {e : WalEvent α}

theorem committed_snoc : committed d₀ (es ++ [(j, e)]) = e.state (committed d₀ es) := by
  unfold committed
  rw [List.foldl_append]
  rfl

/-- Another connection's step, or one that does not refresh the snapshot. -/
theorem IsSnapshot.snoc (h : IsSnapshot d₀ es i d) (hj : j = i → e.refreshes = false) :
    IsSnapshot d₀ (es ++ [(j, e)]) i d := by
  obtain ⟨es₁, e₁, es₂, rfl, hr, hno, hd⟩ := h
  refine ⟨es₁, e₁, es₂ ++ [(j, e)], by rw [List.append_assoc, List.cons_append], hr, ?_, hd⟩
  intro e' he'
  rcases List.mem_append.1 he' with he' | he'
  · exact hno e' he'
  · obtain ⟨rfl, rfl⟩ := Prod.mk.inj (List.mem_singleton.1 he')
    exact hj rfl

theorem IsSnapshot.refresh (hr : e.refreshes = true) :
    IsSnapshot d₀ (es ++ [(i, e)]) i (committed d₀ (es ++ [(i, e)])) :=
  ⟨es, e, [], rfl, hr, fun _ h => absurd h List.not_mem_nil, rfl⟩

theorem InWrite.snoc_cases (h : InWrite (es ++ [(j, e)]) i) :
    (j = i ∧ e = .beginWrite none) ∨ (InWrite es i ∧ (j = i → e ≠ .endWrite)) := by
  obtain ⟨es₁, es₂, he, hno⟩ := h
  rcases List.eq_nil_or_concat es₂ with rfl | ⟨es₃, x, rfl⟩
  · obtain ⟨-, hx⟩ := List.append_inj' he rfl
    exact .inl (Prod.mk.inj (List.singleton_inj.1 hx))
  · rw [List.concat_eq_append, ← List.cons_append, ← List.append_assoc] at he
    obtain ⟨rfl, hx⟩ := List.append_inj' he rfl
    obtain rfl := List.singleton_inj.1 hx
    rw [List.concat_eq_append] at hno
    refine .inr ⟨⟨es₁, es₃, rfl, fun hmem => hno (List.mem_append_left _ hmem)⟩, ?_⟩
    rintro rfl rfl
    exact hno (List.mem_append_right _ (List.mem_singleton_self _))

end Events

/-! ## Reads -/

namespace Pc

/-- In a call of `walTryBeginRead` that must read past the log. -/
def useWal : Pc α → Bool
  | .scan u _ _ _ | .tryMark u _ _ _ | .setMark u _ | .unlockMark u _ | .lockMark u _ _
  | .loadMin u _ _ | .checkMark u _ _ | .checkHdr u _ _ | .unlockRead u _ => u
  | .aborted => true
  | _ => false

@[simp] theorem useWal_ite (p : Prop) [Decidable p] (q q' : Pc α) :
    (if p then q else q').useWal = if p then q.useWal else q'.useWal := by
  split_ifs <;> rfl

@[simp] theorem next_useWal (k : HdrCaller) : (k.next : Pc α).useWal = false := by
  cases k <;> rfl

@[simp] theorem busy_useWal (k : HdrCaller) : (k.busy : Pc α).useWal = false := by
  cases k <;> rfl

@[simp] theorem retry_useWal (u : Bool) : (retry u : Pc α).useWal = u := by
  cases u <;> rfl

@[simp] theorem scanMark_useWal (u : Bool) (n j m mxI : ℕ) (y : Option ℕ) :
    (scanMark u n j m mxI y : Pc α).useWal = u := by
  unfold scanMark
  split
  · split_ifs <;> rfl
  · rfl

@[simp] theorem lookup_useWal (pgno : ℕ) (o : LookupOutcome) :
    (lookup pgno o : Pc α).useWal = false := by
  cases o <;> rfl

@[simp] theorem safeMark_useWal (j s : ℕ) (y : Option ℕ) :
    (safeMark j s y : Pc α).useWal = false := by
  unfold safeMark
  split
  · split_ifs <;> rfl
  · rfl

end Pc

/-- In a read transaction, also where a writer changes its read lock. -/
def WalConn.Begun (c : WalConn α) : Prop := c.readLock ≠ none ∨ c.pc.useWal = true

section Steps

variable {free : FreeLocks} {c c' : WalConn α} {σ σ' : WalShared α} {e : WalEvent α}

theorem Act.begun [Inhabited α] (hc : c.Local σ) (h : Act free σ c e σ' c') (hb : c'.Begun) :
    e.refreshes = true ∨ c.Begun := by
  have hat := hc.here
  unfold WalConn.Begun at hb ⊢
  cases h with
  | hdr h => cases h <;> simp_all <;> simp_all [Pc.useWal]
  | begin h => cases h <;> simp_all [WalEvent.refreshes] <;> simp_all [Pc.useWal]
  | read h => cases h <;> simp_all <;> simp_all [Pc.useWal]
  | undo h => cases h <;> simp_all <;> simp_all [Pc.useWal]
  | frames h => cases h <;> simp_all [WalEvent.refreshes] <;> simp_all [Pc.useWal, WalConn.At]
  | restart h => cases h <;> simp_all <;> simp_all [Pc.useWal]
  | ckpt h => cases h <;> simp_all <;> simp_all [Pc.useWal]
  | backfill h => cases h <;> simp_all <;> simp_all [Pc.useWal]

/-- The content that a read transaction must get. -/
theorem WalConn.Local.read (hσ : σ.Ok) (hc : c.Local σ) (hs : c.Settled σ) {p r : ℕ} {b : α}
    (hpc : c.pc = .found p r) (hb : ((written c.own p).orElse fun _ => c.snap p) = some b) :
    σ.pageAt p r = b := by
  have hat := hc.here
  rw [hpc] at hat
  obtain ⟨ho, hr⟩ := hat
  obtain ⟨k, hk⟩ := ho.readLock
  have hpin := hc.pinned k hk
  have hshows := hpin.shows
  have hsnap : written c.own p = none → c.snap p = some b := fun hw => by
    rw [hw] at hb
    exact hb
  by_cases hk0 : k = 0
  · rw [WalConn.top, hk, hk0, if_pos rfl] at hr
    rw [if_pos hk0] at hshows
    obtain rfl := hr.eq_zero
    have hown : written c.own p = none := by
      rw [hpin.noOwn hk0]
      rfl
    exact hshows p b (hsnap hown) 0 (.inr ⟨framesOf_zero, rfl⟩)
  · rw [WalConn.top, if_neg (by simpa [hk] using hk0)] at hr
    rw [if_neg hk0] at hshows
    by_cases hw : c.Writing
    · have hwr := hc.writes hw
      have hlen : c.hdr.mxFrame = σ.log.length := by rw [hσ.length, hwr.hdr]
      obtain ⟨hown, hlog⟩ := hr.transaction (by rw [WalConn.mxFrame, hlen])
      cases hwp : written c.own p with
      | some b' =>
        rw [hwp] at hb
        obtain rfl : b' = b := Option.some_inj.1 hb
        have hback := hs.backfill hw.1 (by rw [hpc]; rfl)
        have hmin := hpin.minFrame hk0
        obtain ⟨j, rfl, hj⟩ := hown b' hwp (by rw [hσ.length]; omega)
        rw [pageAt, if_neg (by omega), ← hlen]
        exact hwr.wal j _ hj
      | none =>
        rw [← hlen] at hlog
        exact hshows p b (hsnap hwp) r (hlog hwp)
    · have hown := hc.noOwn hw
      rw [WalConn.pages_of_own hown, WalConn.mxFrame, hown, List.length_nil, Nat.add_zero] at hr
      exact hshows p b (hsnap (by rw [hown]; rfl)) r hr

theorem Act.beginWrite [Inhabited α] (hc : c.Local σ)
    (h : Act free σ c (.beginWrite none) σ' c') :
    c'.Writing ∧ c.Begun ∧ c.hdr = σ.hdr0 ∧ c.snap = σ.state := by
  have hat := hc.here
  cases h with
  | read h =>
    cases h with
    | checkWrite h he =>
      rw [h] at hat
      obtain ⟨k, hk⟩ := hat.1.readLock
      exact ⟨⟨hat.2, rfl⟩, .inl (by simp [hk]), he.symm, (hc.pinned k hk).current he.symm⟩
  | hdr h | begin h | undo h | frames h | restart h | ckpt h | backfill h => cases h

theorem Act.commits [Inhabited α] {own : List (ℕ × α)} {nPage : ℕ} (hc : c.Local σ)
    (h : Act free σ c (.commit own nPage) σ' c') : c.Writing ∧ c.Begun ∧ c.snap = σ.state := by
  have hat := hc.here
  cases h with
  | frames h =>
    cases h with
    | publish0 h =>
      rw [h] at hat
      obtain ⟨k, hk, -⟩ := hat.1.readLock
      have hw : c.Writing := ⟨hat.1.writeLock, by rw [h]; rfl⟩
      exact ⟨hw, .inl (by simp [hk]), (hc.writes hw).snap⟩
  | hdr h | begin h | read h | undo h | restart h | ckpt h | backfill h => cases h

end Steps

/-! ## Runs -/

namespace WalSystem

variable [DecidableEq ι] [Inhabited α] {s₀ s t : WalSystem ι α} {es : List (ι × WalEvent α)}
  {i : ι} {e : WalEvent α}

theorem Step.conn_of_ne (h : s.Step i e t) {j : ι} (hj : j ≠ i) : t.conn j = s.conn j := by
  obtain ⟨h⟩ := h
  exact Function.update_of_ne hj ..

theorem Step.exists_act (h : s.Step i e t) :
    Act (s.free i) s.shared (s.conn i) e t.shared (t.conn i) := by
  obtain ⟨h⟩ := h
  rename_i σ c
  change Act _ _ _ _ σ (Function.update s.conn i c i)
  rwa [Function.update_self]

theorem Run.state (h : s₀.Run es s) : s.shared.state = committed s₀.shared.state es := by
  induction h with
  | nil => rfl
  | snoc _ hstep ih => rw [committed_snoc, ← ih, hstep.exists_act.state]

theorem Run.isSnapshot (h₀ : s₀.Init) (h : s₀.Run es s) (i : ι) (hb : (s.conn i).Begun) :
    IsSnapshot s₀.shared.state es i (s.conn i).snap := by
  induction h with
  | nil =>
    have hcl := h₀.closed i
    rcases hb with hb | hb
    · exact absurd hcl.readLock hb
    · rw [hcl.pc] at hb
      cases hb
  | @snoc es t t' j e hrun hstep ih =>
    rcases eq_or_ne i j with rfl | hj
    · have hact := hstep.exists_act
      have hsnap := hact.snap
      cases hr : e.refreshes with
      | true =>
        rw [hr, if_pos rfl] at hsnap
        rw [hsnap, (hrun.snoc hstep).state]
        exact .refresh hr
      | false =>
        rw [hr] at hsnap
        rw [hsnap, if_neg (by decide)]
        have hb' := hact.begun ((hrun.inv h₀.inv).conn i) hb
        rw [hr] at hb'
        exact (ih (hb'.resolve_left (by decide))).snoc fun _ => hr
    · rw [hstep.conn_of_ne hj] at hb ⊢
      exact (ih hb).snoc fun h => absurd h.symm hj

theorem Run.writing (h₀ : s₀.Init) (h : s₀.Run es s) (i : ι) (hi : InWrite es i) :
    (s.conn i).Writing := by
  induction h with
  | nil =>
    obtain ⟨es₁, es₂, he, -⟩ := hi
    exact absurd he.symm (by simp)
  | @snoc es t t' j e hrun hstep ih =>
    have hlocal := (hrun.inv h₀.inv).conn
    rcases hi.snoc_cases with ⟨rfl, rfl⟩ | ⟨hin, hno⟩
    · exact (hstep.exists_act.beginWrite (hlocal j)).1
    · rcases eq_or_ne i j with rfl | hj
      · exact hstep.exists_act.writing (hlocal i) (ih hin) (hno rfl)
      · rw [hstep.conn_of_ne hj]
        exact ih hin

end WalSystem

/-- Whatever the other connections do, a read transaction reads the state that was committed when
it began, but for the pages that it has itself written to the log since. -/
theorem walRead_snapshot [DecidableEq ι] [Inhabited α] {s₀ s t : WalSystem ι α}
    {es : List (ι × WalEvent α)} {i : ι} {pgno : ℕ} {content : α} (h₀ : s₀.Init)
    (hr : s₀.Run es s) (h : s.Step i (.read pgno content) t) :
    ∃ d, IsSnapshot s₀.shared.state es i d ∧
      ∀ b, ((written (s.conn i).own pgno).orElse fun _ => d pgno) = some b → content = b := by
  have hinv := hr.inv h₀.inv
  have hat := (hinv.conn i).here
  obtain ⟨hact⟩ := h
  cases hact with
  | read h =>
    cases h with
    | read hpc =>
      refine ⟨_, hr.isSnapshot h₀ i ?_, fun b hb =>
        (hinv.conn i).read hinv.ok (hinv.settled i) hpc hb⟩
      rw [hpc] at hat
      obtain ⟨k, hk⟩ := hat.1.readLock
      exact .inl (by simp [hk])
  | hdr h | begin h | undo h | frames h | restart h | ckpt h | backfill h => cases h

/-- Two connections to an empty log over a database of one page. -/
def emptyLog : WalSystem Bool ℕ where
  shared :=
    { hdr0 := ⟨0, 0, 1, 0⟩, hdr1 := ⟨0, 0, 1, 0⟩, nBackfill := 0, aReadMark := fun _ => none
      apWiData := fun _ => ⟨fun _ => 0, fun _ => 0⟩, wal := fun _ => 0, db := fun _ => 5, log := []
      state := fun p => if 0 < p ∧ p ≤ 1 then some 5 else none }
  conn := fun _ =>
    { hdr := ⟨0, 0, 0, 0⟩, readLock := none, minFrame := 0, writeLock := 0, ckptLock := false
      nCkpt := 0, savepoints := [], own := [], pList := [], nTruncate := 0, iFirst := 0
      appended := [], eMode := .passive, pc := .idle, snap := fun _ => none }

theorem emptyLog_init : emptyLog.Init where
  closed _ := ⟨rfl, rfl, rfl, rfl, rfl⟩
  copies := rfl
  nBackfill := rfl
  length := rfl
  indexes := Indexes.nil _
  state p r hr := by
    obtain rfl := IsLatest.eq_zero hr
    rfl

/-- The events of a connection that begins to read and looks for page 1. -/
def readEvents : List (Bool × WalEvent ℕ) :=
  [(true, .tau), (true, .tau), (true, .tau), (true, .tau), (true, .tau), (true, .beginRead),
    (true, .tau)]

theorem emptyLog_run : ∃ s t, emptyLog.Run readEvents s ∧ s.Step true (.read 1 5) t := by
  have h₁ := WalSystem.Run.nil.snoc (s := emptyLog) (i := true) (.act (.begin (.openRead rfl)))
  have h₂ := h₁.snoc (i := true) (.act (.hdr (.loadHdr0 rfl)))
  have h₃ := h₂.snoc (i := true) (.act (.hdr (.goodHdr rfl)))
  have h₄ := h₃.snoc (i := true) (.act (.begin (.tryBegin rfl)))
  have h₅ := h₄.snoc (i := true) (.act (.begin (.lockZero rfl ?_)))
  have h₆ := h₅.snoc (i := true) (.act (.begin (.checkZero rfl rfl)))
  have h₇ := h₆.snoc (i := true) (.act (.read (@ReadAct.find ℕ _ _ _ 1 0 rfl rfl)))
  · exact ⟨_, _, h₇, .act (.read (@ReadAct.read ℕ _ _ _ 1 0 rfl))⟩
  · intro j hj
    cases j
    · exact id
    · exact absurd rfl hj

theorem walRead_snapshot_emptyLog : ∃ s t, emptyLog.Run readEvents s ∧
    s.Step true (.read 1 5) t ∧
    ∃ d, IsSnapshot emptyLog.shared.state readEvents true d ∧
      ∀ b, ((written (s.conn true).own 1).orElse fun _ => d 1) = some b → 5 = b := by
  obtain ⟨s, t, hrun, hstep⟩ := emptyLog_run
  exact ⟨s, t, hrun, hstep, walRead_snapshot emptyLog_init hrun hstep⟩

end Btreelite
