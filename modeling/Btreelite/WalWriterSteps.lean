import Btreelite.WalSteps

/-!
# The steps of a writer

Rollbacks, savepoints, `walFrames` and the restart of the log. The writer's frames lie after the
log, in the file and in the wal-index, until a commit makes them part of it.
-/

namespace Btreelite

open WalShared

variable {α : Type} {free : FreeLocks} {c c' : WalConn α} {σ σ' : WalShared α} {e : WalEvent α}

namespace WalConn

/-! ## Rollbacks and savepoints -/

theorem mem_pending {w m : WalIndex} {past : List WalIndex} (hm : m ∈ pending w past) :
    m = w ∨ m ∈ past := by
  have hm := List.mem_of_mem_tail hm
  exact List.mem_cons.1 (List.mem_reverse.1 hm)

theorem Writes.length (h : c.Writes σ) (hσ : σ.Ok) : (c.pages σ).length = c.mxFrame := by
  rw [pages, List.length_append, List.length_map, hσ.length, ← h.hdr]
  rfl

theorem Writes.take_log (h : c.Writes σ) (hσ : σ.Ok) :
    (c.pages σ).take c.hdr.mxFrame = σ.log := by
  rw [pages, h.hdr, ← hσ.length, List.take_left]

/-- The writer has given up its frames after some of them. -/
theorem Local.undone {q : Pc α} {ms : List WalIndex} {n : ℕ} {sp : List (ℕ × ℕ)} (hσ : σ.Ok)
    (h : c.Local σ) (hpc : c.pc = .ready) (hw : c.writeLock = 1)
    (hms : ∀ m ∈ ms, Indexes m ((c.pages σ).take (c.hdr.mxFrame + n)))
    (hsp : ∀ d ∈ sp, d.2 ≤ c.nCkpt ∧ c.hdr.mxFrame ≤ (savepointData c.nCkpt d).1)
    (hq : q = .store ms .undo) :
    WalConn.Local { c with own := c.own.take n, savepoints := sp, pc := q } σ := by
  subst hq
  have hwr := h.writes ⟨hw, by rw [hpc]; rfl⟩
  have ho : c.Open := by
    have := h.here
    rw [hpc] at this
    exact this
  have hpages : ∀ c' : WalConn α, c'.own = c.own.take n →
      c'.pages σ = (c.pages σ).take (c.hdr.mxFrame + n) := by
    intro c' ho
    rw [pages, pages, ho, hwr.hdr, ← hσ.length, List.take_length_add_append, List.map_take]
  refine ⟨fun k hk => ?_, fun _ => ⟨hwr.hdr, ?_, fun j x hx => ?_, hwr.snap, hsp⟩,
    fun hno => absurd ⟨hw, rfl⟩ hno, ⟨ho.readLock, ho.writeLock, ho.ckptLock⟩, hw, ?_⟩
  · refine (h.pinned k hk).congr (by rw [hpc]; rfl) rfl rfl rfl fun h0 => ?_
    change c.own.take n = []
    rw [(h.pinned k hk).noOwn h0, List.take_nil]
  · rw [hpages _ rfl]
    exact hwr.indexes.take _
  · refine hwr.wal j x ?_
    have hx : (c.own.take n)[j]? = some x := hx
    rw [List.getElem?_take] at hx
    split_ifs at hx
    exact hx
  · rw [hpages _ rfl]
    exact hms

theorem Local.setIndex {m : WalIndex} {ms : List WalIndex} {k : AfterStores}
    (h : c.Local σ) (hpc : c.pc = .store (m :: ms) k) :
    c.writeLock = 1 ∧ Indexes m (c.pages σ) ∧
      WalConn.Local { c with pc := .store ms k } (σ.setIndex m) := by
  have hat := h.here
  rw [hpc] at hat
  have hw : c.writeLock = 1 := by
    cases k with
    | undo => exact hat.2.1
    | frames => exact hat.1.writeLock
  have hwr := h.writes ⟨hw, by rw [hpc]; rfl⟩
  have hm : Indexes m (c.pages σ) := by
    cases k with
    | undo => exact hat.2.2 m (List.mem_cons_self ..)
    | frames => exact hat.2.1 m (List.mem_cons_self ..)
  refine ⟨hw, hm, fun k hk => ?_, fun _ => ⟨hwr.hdr, hm, hwr.wal, hwr.snap, hwr.savepoints⟩,
    fun hno => absurd ⟨hw, rfl⟩ hno, ?_⟩
  · have hp := h.pinned k hk
    exact ⟨hp.lt, @seen_congr _ σ (σ.setIndex m) rfl rfl rfl _ hp.seen, hp.shows, hp.current,
      hp.salt, hp.mark, hp.minFrame, fun h0 _ => hp.zero h0 (by rw [hpc]; rfl), hp.noOwn⟩
  · cases k with
    | undo =>
      obtain ⟨ho, -, hms⟩ := hat
      exact ⟨ho.setPc, hw, fun x hx => hms x (List.mem_cons_of_mem _ hx)⟩
    | frames =>
      obtain ⟨hap, hms, hn, hlast⟩ := hat
      rw [List.getLast?_cons] at hlast
      exact ⟨⟨hap.toFraming.setPc, hap.pages, hap.wal⟩,
        fun x hx => hms x (List.mem_cons_of_mem _ hx), hn, hlast⟩

theorem Local.setSavepoints {sp : List (ℕ × ℕ)} (h : c.Local σ) (hpc : c.pc = .ready)
    (hw : c.writeLock = 1)
    (hsp : ∀ d ∈ sp, d.2 ≤ c.nCkpt ∧ c.hdr.mxFrame ≤ (savepointData c.nCkpt d).1) :
    WalConn.Local { c with savepoints := sp } σ := by
  have hwr := h.writes ⟨hw, by rw [hpc]; rfl⟩
  refine ⟨fun k hk => ?_, fun _ => ⟨hwr.hdr, hwr.indexes, hwr.wal, hwr.snap, hsp⟩, h.noOwn, ?_⟩
  · exact (h.pinned k hk).congr (by rw [hpc]; rfl) rfl rfl rfl (h.pinned k hk).noOwn
  · have hat := h.here
    change WalConn.At _ σ c.pc
    rw [hpc] at hat ⊢
    have ho : c.Open := hat
    exact ⟨ho.readLock, ho.writeLock, ho.ckptLock⟩

theorem keeps_undo [Inhabited α] (hσ : σ.Ok) (hc : c.Local σ)
    (h : UndoAct free σ c e σ' c') : c.Keeps σ σ' c' := by
  have hat := hc.here
  cases h with
  | @undo p w past h hw hrun =>
    have hwr := hc.writes ⟨hw, by rw [h]; rfl⟩
    have hlen := hwr.length hσ
    have hstays := @sqlite3WalUndo_stays _ _ c.walWriter σ.hdr0.mxFrame hwr.indexes
      (by rw [hlen, ← hwr.hdr]; exact Nat.le_add_right ..)
    obtain ⟨⟨-, hw'⟩, hpast⟩ := hstays.of_ok hrun
    have := @Local.undone _ c σ (.store (pending w past) .undo) (pending w past) 0 c.savepoints
      hσ hc h hw (fun m hm => ?_) hwr.savepoints rfl
    · rw [List.take_zero] at this
      exact ⟨.none, hwr.hdr ▸ this⟩
    · rw [Nat.add_zero, hwr.hdr]
      rcases mem_pending hm with rfl | hm
      · exact hw'
      · exact hpast m hm
  | savepoint h hw =>
    have hwr := hc.writes ⟨hw, by rw [h]; rfl⟩
    refine ⟨.none, hc.setSavepoints h hw fun d hd => ?_⟩
    rcases List.mem_append.1 hd with hd | hd
    · exact hwr.savepoints d hd
    · obtain rfl := List.mem_singleton.1 hd
      have hsame : savepointData c.nCkpt (sqlite3WalSavepoint c.walWriter) = (c.mxFrame, c.nCkpt) :=
        if_neg (not_not.2 rfl)
      rw [hsame]
      exact ⟨le_rfl, Nat.le_add_right ..⟩
  | @savepointUndo i d p w past h hw hd hrun =>
    have hwr := hc.writes ⟨hw, by rw [h]; rfl⟩
    have hlen := hwr.length hσ
    obtain ⟨hdn, hdm⟩ := hwr.savepoints d (List.mem_of_getElem? hd)
    have hmx : c.walWriter.mxFrame = (c.pages σ).length := hlen.symm
    obtain ⟨⟨-, hp, hw'⟩, hpast⟩ := (sqlite3WalSavepointUndo_stays hwr.indexes hmx
      (c := min (savepointData c.nCkpt d).1 (c.pages σ).length) (Nat.min_le_left ..)).of_ok hrun
    have hp : p.mxFrame = min (savepointData c.nCkpt d).1 (c.pages σ).length := hp
    have hle : c.hdr.mxFrame ≤ (c.pages σ).length := hlen ▸ Nat.le_add_right ..
    refine ⟨.none, .undone hσ hc h hw (fun m hm => ?_) (fun d' hd' => ?_) rfl⟩
    · rw [Nat.add_sub_cancel' (by omega)]
      rcases mem_pending hm with rfl | hm
      · exact hw'
      · rw [hp]
        exact hpast m hm
    · rcases List.mem_append.1 hd' with hd' | hd'
      · exact hwr.savepoints d' (List.mem_of_mem_take hd')
      · rw [List.mem_singleton.1 hd', savepointData_idem]
        refine ⟨?_, hdm⟩
        unfold savepointData
        split_ifs
        · exact le_rfl
        · exact hdn
  | @release i h hw =>
    have hwr := hc.writes ⟨hw, by rw [h]; rfl⟩
    exact ⟨.none, hc.setSavepoints h hw fun d hd => hwr.savepoints d (List.mem_of_mem_take hd)⟩
  | @store m ms k h =>
    obtain ⟨hw, hm, hl⟩ := hc.setIndex h
    have hlog := hm.take σ.log.length
    rw [pages, List.take_left] at hlog
    exact ⟨.index hw hlog, hl⟩
  | undone h => exact ⟨.none, hc.goto h (fun _ _ => rfl) rfl fun hat => hat.1⟩

/-! ## Writing frames -/

theorem Local.setHdr1 {h' : Hdr} {q : Pc α} (h : c.Local σ) (hz : c.pc.storingBackfill = false)
    (hw : q.inWrite = c.pc.inWrite)
    (hq : WalConn.At { c with pc := q } (σ.setHdr1 h') q) :
    WalConn.Local { c with pc := q } (σ.setHdr1 h') := by
  have hwr : WalConn.Writing { c with pc := q } ↔ c.Writing := by
    unfold Writing
    rw [← hw]
  refine ⟨fun k hk => ?_, fun hwrite => ?_, fun hno => h.noOwn fun hwrite => hno (hwr.2 hwrite), hq⟩
  · have hp := h.pinned k hk
    exact ⟨hp.lt, @seen_congr _ σ (σ.setHdr1 h') rfl rfl rfl _ hp.seen, hp.shows, hp.current,
      hp.salt, hp.mark, hp.minFrame, fun h0 _ => hp.zero h0 hz, hp.noOwn⟩
  · have hwrites := h.writes (hwr.1 hwrite)
    exact ⟨hwrites.hdr, hwrites.indexes, hwrites.wal, hwrites.snap, hwrites.savepoints⟩

/-- A writer past read lock `0` stores a frame after the log. -/
theorem Local.setWal {wal : ℕ → α} {own appended pList : List (ℕ × α)} (h : c.Local σ)
    (hpc : c.pc = .frames) (hf : c.Framing)
    (hsame : ∀ f ≤ c.hdr.mxFrame, wal f = σ.wal f)
    (hpages : own.map Prod.fst = c.own.map Prod.fst)
    (hown : ∀ (j : ℕ) x, own[j]? = some x → wal (c.hdr.mxFrame + j + 1) = x.2)
    (hap : ∀ (j : ℕ) x, appended[j]? = some x → wal (c.mxFrame + j + 1) = x.2)
    (hpos : ∀ x ∈ appended, x.1 ≠ 0) (hl : ∀ x ∈ pList, x.1 ≠ 0)
    (hn : c.nTruncate ≠ 0 → pList = [] → appended ≠ [])
    (hi : c.iFirst ≠ 0 → c.iFirst = c.hdr.mxFrame + 1) :
    WalConn.Local { c with own, appended, pList } (σ.setWal wal) := by
  have hwr := h.writes ⟨hf.writeLock, by rw [hpc]; rfl⟩
  obtain ⟨k₀, hk₀, hk0⟩ := hf.readLock
  have hlen : own.length = c.own.length := by
    simpa only [List.length_map] using congrArg List.length hpages
  refine ⟨fun k hk => ?_, fun _ => ⟨hwr.hdr, ?_, hown, hwr.snap, hwr.savepoints⟩,
    fun hno => absurd ⟨hf.writeLock, by change c.pc.inWrite = true; rw [hpc]; rfl⟩ hno, ?_⟩
  · have hp := h.pinned k hk
    obtain rfl : k₀ = k := Option.some_inj.1 (hk₀.symm.trans hk)
    refine ⟨hp.lt, @seen_congr _ σ (σ.setWal wal) rfl rfl rfl _ hp.seen, ?_, hp.current, hp.salt,
      hp.mark, hp.minFrame, fun h0 => absurd h0 hk0, fun h0 => absurd h0 hk0⟩
    refine hp.shows.setWal fun f _ hf => hsame f ?_
    rwa [if_neg hk0] at hf
  · unfold pages
    rw [hpages]
    exact hwr.indexes
  · change WalConn.At _ _ c.pc
    rw [hpc]
    refine ⟨⟨⟨⟨k₀, hk₀, hk0⟩, hf.writeLock, hf.ckptLock⟩, hpos, fun j x hx => ?_⟩, hi, hl, hn⟩
    rw [mxFrame, hlen]
    exact hap j x hx

/-- The frame after those added so far. -/
theorem Local.append {p : ℕ} {a : α} {rest : List (ℕ × α)} (h : c.Local σ)
    (hpc : c.pc = .frames) (hp : p ≠ 0) (hrest : ∀ x ∈ rest, x.1 ≠ 0) :
    WalConn.Local { c with appended := c.appended ++ [(p, a)], pList := rest }
      (σ.setWal (Function.update σ.wal (c.mxFrame + c.appended.length + 1) a)) := by
  have hat := h.here
  rw [hpc] at hat
  obtain ⟨hap, hi, -, -⟩ := hat
  have hwr := h.writes ⟨hap.writeLock, by rw [hpc]; rfl⟩
  have hlow : ∀ f ≤ c.mxFrame + c.appended.length,
      Function.update σ.wal (c.mxFrame + c.appended.length + 1) a f = σ.wal f :=
    fun f hf => Function.update_of_ne (by omega) ..
  refine h.setWal hpc hap.toFraming (fun f hf => hlow f ?_) rfl (fun j x hx => ?_)
    (fun j x hx => ?_) (fun x hx => ?_) hrest (fun _ _ => by simp) hi
  · have : c.hdr.mxFrame ≤ c.mxFrame := Nat.le_add_right ..
    omega
  · have hj := (List.getElem?_eq_some_iff.1 hx).1
    have : c.mxFrame = c.hdr.mxFrame + c.own.length := rfl
    rw [hlow _ (by omega)]
    exact hwr.wal j x hx
  · rcases Nat.lt_or_ge j c.appended.length with hj | hj
    · rw [List.getElem?_append_left hj] at hx
      rw [hlow _ (by omega)]
      exact hap.wal j x hx
    · rw [List.getElem?_append_right hj] at hx
      rw [List.getElem?_singleton] at hx
      split_ifs at hx with h0
      obtain rfl := Option.some_inj.1 hx
      rw [show c.mxFrame + j + 1 = c.mxFrame + c.appended.length + 1 by omega,
        Function.update_self]
  · rcases List.mem_append.1 hx with hx | hx
    · exact hap.pages x hx
    · rw [List.mem_singleton.1 hx]
      exact hp

/-- A frame that the writer finds past the log is one of its own. -/
theorem Local.own_of_found {p k iWrite : ℕ} (hσ : σ.Ok) (hwr : c.Writes σ) (hk0 : k ≠ 0)
    (hf : walFindFrame σ.apWiData k false c.minFrame c.mxFrame p = .ok iWrite)
    (hge : c.hdr.mxFrame < iWrite) :
    ∃ j b, iWrite = c.hdr.mxFrame + j + 1 ∧ c.own[j]? = some (p, b) := by
  have hlen := hwr.length hσ
  obtain ⟨r, hr, hlatest⟩ := @walFindFrame_latest _ c.mxFrame c.minFrame p (c.pages σ)
    hwr.indexes hlen.ge k false (.inl hk0)
  obtain rfl : r = iWrite := by simpa [hf] using hr.symm
  obtain ⟨-, -, -, hp⟩ := hlatest.mem (by omega)
  rw [pages, List.getElem?_append_right (by rw [hσ.length, ← hwr.hdr]; omega), List.getElem?_map,
    hσ.length, ← hwr.hdr] at hp
  obtain ⟨⟨q, b⟩, hj, rfl⟩ := Option.map_eq_some_iff.1 hp
  exact ⟨r - 1 - c.hdr.mxFrame, b, by omega, hj⟩

theorem Local.overwrite {p j : ℕ} {a b : α} {rest : List (ℕ × α)} (h : c.Local σ)
    (hpc : c.pc = .frames) (hj : c.own[j]? = some (p, b)) (hrest : ∀ x ∈ rest, x.1 ≠ 0)
    (hn : c.nTruncate ≠ 0 → rest ≠ []) :
    WalConn.Local { c with own := c.own.set j (p, a), pList := rest }
      (σ.setWal (Function.update σ.wal (c.hdr.mxFrame + j + 1) a)) := by
  have hat := h.here
  rw [hpc] at hat
  obtain ⟨hap, hi, -, -⟩ := hat
  have hwr := h.writes ⟨hap.writeLock, by rw [hpc]; rfl⟩
  obtain ⟨hlt, hget⟩ := List.getElem?_eq_some_iff.1 hj
  refine h.setWal hpc hap.toFraming (fun f hf => ?_) ?_ (fun i x hx => ?_) (fun i x hx => ?_)
    hap.pages hrest (fun h0 hr => absurd hr (hn h0)) hi
  · exact Function.update_of_ne (by omega) ..
  · rw [List.map_set]
    refine List.ext_getElem? fun i => ?_
    rw [List.getElem?_set]
    split_ifs with hi hlt'
    · rw [← hi, List.getElem?_map, hj]
      rfl
    · rw [List.length_map] at hlt'
      omega
    · rfl
  · rw [List.getElem?_set] at hx
    split_ifs at hx with hi
    · obtain rfl := Option.some_inj.1 hx
      rw [← hi, Function.update_self]
    · rw [Function.update_of_ne (by omega)]
      exact hwr.wal i x hx
  · have : c.mxFrame = c.hdr.mxFrame + c.own.length := rfl
    rw [Function.update_of_ne (by omega)]
    exact hap.wal i x hx

theorem Appends.effect [Inhabited α] {n : ℕ} {a : α} (h : c.Appends σ) (hwr : c.Writes σ)
    (hn : c.hdr.mxFrame < n) : c.Effect σ (σ.setWal (Function.update σ.wal n a)) := by
  refine .wal h.writeLock fun f _ hf => Function.update_of_ne ?_ ..
  rw [← hwr.hdr] at hf
  omega

/-- `walFrames` begins. -/
theorem Local.walFrames {pList : List (ℕ × α)} {nTruncate : ℕ} (h : c.Local σ)
    (hpc : c.pc = .ready) (hw : c.writeLock = 1) (hl : pList ≠ []) (hp : ∀ x ∈ pList, x.1 ≠ 0) :
    WalConn.Local
      { c with
        pList, nTruncate, appended := []
        iFirst := if c.privateHdr = σ.hdr0 then 0 else σ.hdr0.mxFrame + 1
        pc := if c.readLock = some 0 then .restartLog else .frames } σ := by
  have hwr := h.writes ⟨hw, by rw [hpc]; rfl⟩
  have hat := h.here
  rw [hpc] at hat
  have ho : c.Open := hat
  obtain ⟨k₀, hk₀⟩ := ho.readLock
  have hin : (if c.readLock = some 0 then Pc.restartLog else Pc.frames : Pc α).inWrite = true := by
    split_ifs <;> rfl
  refine ⟨fun k hk => ?_, fun _ => ⟨hwr.hdr, hwr.indexes, hwr.wal, hwr.snap, hwr.savepoints⟩,
    fun hno => absurd ⟨hw, hin⟩ hno, ?_⟩
  · exact (h.pinned k hk).congr (by rw [hpc]; rfl) rfl rfl rfl (h.pinned k hk).noOwn
  · by_cases hk0 : c.readLock = some 0
    · have hown := (h.pinned 0 hk0).noOwn rfl
      have hhdr : c.privateHdr = σ.hdr0 := by
        rw [← hwr.hdr, privateHdr, mxFrame, hown]
        rfl
      simp only [hk0, if_true, hhdr]
      exact ⟨hw, rfl, ho.ckptLock, hown, rfl, hl, hp, rfl⟩
    · simp only [hk0, if_false]
      have hk0 : k₀ ≠ 0 := fun h0 => hk0 (h0 ▸ hk₀)
      refine ⟨⟨⟨⟨k₀, hk₀, hk0⟩, hw, ho.ckptLock⟩, fun x hx => absurd hx List.not_mem_nil,
        fun j x hx => ?_⟩, fun hi => ?_, hp, fun _ h0 => absurd h0 hl⟩
      · exact absurd hx (by simp)
      · simp only [] at hi ⊢
        split_ifs at hi ⊢
        · exact absurd rfl hi
        · rw [← hwr.hdr]

/-- The commit record of the wal-index has been stored. -/
theorem Local.commit (hσ : σ.Ok) (h : c.Local σ) (hpc : c.pc = .publish0)
    (hb : σ.nBackfill ≤ σ.hdr0.mxFrame) :
    WalConn.Local
      { c with
        hdr := c.newHdr, own := [], savepoints := []
        snap := σ.state.apply c.own c.nTruncate
        pc := .ready }
      (σ.commit c.newHdr (c.own.map Prod.fst) (σ.state.apply c.own c.nTruncate)) := by
  have hat := h.here
  rw [hpc] at hat
  obtain ⟨hf, hne, -⟩ := hat
  have hwr := h.writes ⟨hf.writeLock, by rw [hpc]; rfl⟩
  have hok := hσ.commit (h := c.newHdr) hwr.newHdr_mxFrame hwr.indexes
    (fun j x hx => hwr.hdr ▸ hwr.wal j x hx) hb
  obtain ⟨k₀, hk₀, hk0⟩ := hf.readLock
  refine ⟨fun k hk => ?_, fun _ => ⟨rfl, ?_, fun j x hx => absurd hx (by simp), rfl,
    fun d hd => absurd hd List.not_mem_nil⟩, fun _ => rfl,
    ⟨⟨k₀, hk₀⟩, by rw [hf.writeLock], hf.ckptLock⟩⟩
  · obtain rfl : k₀ = k := Option.some_inj.1 (hk₀.symm.trans hk)
    have hp := h.pinned k₀ hk₀
    refine ⟨hp.lt, hok.seen, ?_, fun _ => rfl, fun _ => rfl, fun _ => ?_, fun _ => hp.minFrame hk0,
      fun h0 => absurd h0 hk0, fun h0 => absurd h0 hk0⟩
    · rw [if_neg hk0]
      exact hok.shows _ (hp.minFrame hk0)
    · obtain ⟨y, hy, hle⟩ := hp.mark hk0
      exact ⟨y, hy, hle.trans (Nat.le_add_right ..)⟩
  · rw [pages_of_own rfl]
    exact hok.indexes

/-- The stores of the entries for the frames added. -/
theorem Local.startStores {w : WalIndex} {past : List WalIndex} (hσ : σ.Ok) (h : c.Local σ)
    (hpc : c.pc = .frames) (hl : c.pList = [])
    (hrun : appendFrames c.mxFrame c.mxFrame (c.appended.map Prod.fst) ⟨σ.apWiData, []⟩
      = .ok () ⟨w, past⟩) :
    WalConn.Local { c with pc := .store (pending w past) .frames } σ := by
  refine h.goto hpc (fun _ _ => rfl) rfl fun hat => ?_
  obtain ⟨hap, -, -, hn⟩ := hat
  have hwr := h.writes ⟨hap.writeLock, by rw [hpc]; rfl⟩
  have hlen := hwr.length hσ
  have hpos : ∀ p ∈ c.appended.map Prod.fst, p ≠ 0 := fun p hp => by
    obtain ⟨x, hx, rfl⟩ := List.mem_map.1 hp
    exact hap.pages x hx
  have hstays := @appendFrames_stays c.mxFrame _ (c.appended.map Prod.fst) (c.pages σ)
    σ.apWiData le_rfl hwr.indexes (.inl hlen.symm) hpos
  rw [hlen] at hstays
  obtain ⟨hw, hpast⟩ := hstays.of_ok hrun
  rw [← hlen, List.take_length] at hpast
  refine ⟨hap, fun m hm => ?_, fun h0 => hn h0 hl, ?_⟩
  · rcases mem_pending hm with rfl | hm
    · have := hw.take (c.pages σ).length
      rwa [List.take_left] at this
    · exact hpast m hm
  · cases hnil : c.appended with
    | nil =>
      rw [hnil] at hrun hw
      obtain ⟨rfl, rfl⟩ := Shm.mk.inj (EStateM.Result.ok.inj hrun).2
      exact hw
    | cons x appended =>
      have hne := (appendFrames_past (c.appended.map Prod.fst) c.mxFrame ⟨σ.apWiData, []⟩
        (.inr (by simp [hnil]))).of_ok hrun
      obtain ⟨m, past', rfl⟩ := List.exists_cons_of_ne_nil hne
      have hlast : (pending w (m :: past')).getLast? = some w := by
        rw [pending, List.tail_reverse, List.getLast?_reverse]
        rfl
      rw [hlast, ← hnil]
      exact hw

theorem Local.indexed (h : c.Local σ) (hpc : c.pc = .store [] .frames) :
    WalConn.Local
      { c with
        own := c.own ++ c.appended
        pc := if c.nTruncate = 0 then .ready else .publish1 } σ := by
  have hat := h.here
  rw [hpc] at hat
  obtain ⟨hap, -, hn, hw⟩ := hat
  have hwr := h.writes ⟨hap.writeLock, by rw [hpc]; rfl⟩
  obtain ⟨k₀, hk₀, hk0⟩ := hap.readLock
  have hin : (if c.nTruncate = 0 then Pc.ready else Pc.publish1 : Pc α).inWrite = true := by
    split_ifs <;> rfl
  refine ⟨fun k hk => ?_, fun _ => ⟨hwr.hdr, ?_, fun j x hx => ?_, hwr.snap, hwr.savepoints⟩,
    fun hno => absurd ⟨hap.writeLock, hin⟩ hno, ?_⟩
  · obtain rfl : k₀ = k := Option.some_inj.1 (hk₀.symm.trans hk)
    exact (h.pinned k₀ hk).congr (by rw [hpc]; rfl) rfl rfl rfl fun h0 => absurd h0 hk0
  · unfold pages
    rw [List.map_append, ← List.append_assoc]
    exact hw
  · rcases Nat.lt_or_ge j c.own.length with hj | hj
    · rw [List.getElem?_append_left hj] at hx
      exact hwr.wal j x hx
    · rw [List.getElem?_append_right hj] at hx
      rw [← hap.wal _ x hx]
      have : c.mxFrame = c.hdr.mxFrame + c.own.length := rfl
      congr 1
      simp only []
      omega
  · by_cases h0 : c.nTruncate = 0
    · simp only [h0, if_true]
      exact ⟨⟨k₀, hk₀⟩, by rw [hap.writeLock], hap.ckptLock⟩
    · simp only [h0, if_false]
      exact ⟨⟨⟨k₀, hk₀, hk0⟩, hap.writeLock, hap.ckptLock⟩, fun he =>
        hn h0 (List.append_eq_nil_iff.1 he).2⟩

theorem keeps_frames [Inhabited α] (hσ : σ.Ok) (hc : c.Local σ) (hs : c.Settled σ)
    (h : FramesAct free σ c e σ' c') : c.Keeps σ σ' c' := by
  have hat := hc.here
  cases h with
  | walFrames h hw hl hp => exact ⟨.none, hc.walFrames h hw hl hp⟩
  | restartLog h =>
    refine ⟨.none, hc.goto h (fun _ _ => ?_) rfl fun hat => ?_⟩
    · split_ifs <;> rfl
    · split_ifs <;> exact hat
  | lockRestart h hf =>
    rw [h] at hat
    have hwr := hc.writes ⟨hat.1, by rw [h]; rfl⟩
    refine ⟨.none, hc.goto h (fun _ _ => rfl) rfl fun ⟨hw, hk, hck, hj⟩ => ?_⟩
    have hp := hc.pinned 0 hk
    exact ⟨⟨hw, hwr.hdr, hk, hck, hj⟩, (hp.zero rfl (by rw [h]; rfl) hwr.hdr).ge⟩
  | lockRestartBusy h => exact ⟨.none, hc.goto h (fun _ _ => rfl) rfl fun hat => hat⟩
  | leaveZero h =>
    rw [h] at hat
    obtain ⟨hw, hk, hck, hj⟩ := hat
    have hwr := hc.writes ⟨hw, by rw [h]; rfl⟩
    exact ⟨.none, fun k hk => absurd hk (by simp),
      fun _ => ⟨hwr.hdr, hwr.indexes, hwr.wal, hwr.snap, hwr.savepoints⟩,
      fun hno => absurd ⟨hw, rfl⟩ hno,
      ⟨rfl, hw, hck, fun _ => ⟨hj.own, hj.appended, hj.pList, hj.pages, hj.iFirst⟩⟩,
      hwr.hdr ▸ hσ.seen, le_rfl, by decide, Nat.zero_le _⟩
  | giveUpWal h => exact ⟨.none, hc.goto h (fun _ _ => rfl) rfl fun hat => hat.1⟩
  | abort h =>
    rw [h] at hat
    have hst : c.Starting true := hat
    exact ⟨.none, .outside hst.readLock (not_writing rfl) (hst.job rfl).own
      ⟨hst.readLock, rfl, hst.ckptLock, fun h => by cases h⟩⟩
  | @overwrite p k iWrite a rest h hl hi hr hk hf hge =>
    rw [h] at hat
    obtain ⟨hap, hfirst, hpos, -⟩ := hat
    have hwr := hc.writes ⟨hap.writeLock, by rw [h]; rfl⟩
    obtain ⟨k', hk', hk0⟩ := hap.readLock
    obtain rfl : k' = k := Option.some_inj.1 (hk'.symm.trans hk)
    have hlt : c.hdr.mxFrame < iWrite := by
      rw [hfirst hi] at hge
      omega
    obtain ⟨j, b, rfl, hj⟩ := Local.own_of_found hσ hwr hk0 hf hlt
    refine ⟨hap.effect hwr hlt, ?_⟩
    rw [show c.hdr.mxFrame + j + 1 - c.hdr.mxFrame - 1 = j by omega]
    refine hc.overwrite h hj (fun x hx => hpos x (hl ▸ List.mem_cons_of_mem _ hx)) fun h0 => ?_
    exact hr.resolve_right h0
  | @append p k a rest h hl hk hno =>
    rw [h] at hat
    obtain ⟨hap, -, hpos, -⟩ := hat
    have hwr := hc.writes ⟨hap.writeLock, by rw [h]; rfl⟩
    have hle : c.hdr.mxFrame ≤ c.mxFrame := Nat.le_add_right ..
    exact ⟨hap.effect hwr (by omega), hc.append h (hpos (p, a) (hl ▸ List.mem_cons_self ..))
      fun x hx => hpos x (hl ▸ List.mem_cons_of_mem _ hx)⟩
  | @pad x h hl hn hx =>
    rw [h] at hat
    obtain ⟨hap, -, -, -⟩ := hat
    have hwr := hc.writes ⟨hap.writeLock, by rw [h]; rfl⟩
    have hle : c.hdr.mxFrame ≤ c.mxFrame := Nat.le_add_right ..
    have hmem := List.mem_of_getLast? hx
    have := @Local.append _ c σ _ x.2 c.pList hc h (hap.pages x hmem)
      fun y hy => absurd (hl ▸ hy) List.not_mem_nil
    exact ⟨hap.effect hwr (by omega), this⟩
  | index h hl hrun => exact ⟨.none, hc.startStores hσ h hl hrun⟩
  | framesFail h =>
    refine ⟨.none, hc.goto h (fun _ _ => rfl) rfl fun hat => ?_⟩
    obtain ⟨k, hk, -⟩ := hat.1.readLock
    exact ⟨⟨k, hk⟩, hat.1.writeLock.le, hat.1.ckptLock⟩
  | storeFails h =>
    refine ⟨.none, hc.goto h (fun _ _ => rfl) rfl fun hat => ?_⟩
    obtain ⟨k, hk, -⟩ := hat.1.readLock
    exact ⟨⟨k, hk⟩, hat.1.writeLock.le, hat.1.ckptLock⟩
  | indexed h => exact ⟨.none, hc.indexed h⟩
  | publish1 h =>
    rw [h] at hat
    refine ⟨.hdr1 hat.1.writeLock, hc.setHdr1 (by rw [h]; rfl) (by rw [h]; rfl) ?_⟩
    exact ⟨hat.1.setPc, hat.2, rfl⟩
  | publish0 h =>
    rw [h] at hat
    have hwr := hc.writes ⟨hat.1.writeLock, by rw [h]; rfl⟩
    have hb := hs.backfill hat.1.writeLock (by rw [h]; rfl)
    exact ⟨.commit hat.1.writeLock hwr hat.2.1 hb, hc.commit hσ h hb⟩

/-! ## Restarting the log -/

theorem Restarts.exRead {k : RestartCaller} {ph : RestartStore} (hpc : c.pc = .restart k ph) :
    ∀ i, 1 ≤ i → i < WAL_NREADER → c.exRead i := by
  intro i h1 hi
  exact exRead_at hpc ⟨h1, hi⟩

/-- A writer that restarts the log holds read lock `0`, a checkpointer none. -/
theorem Restarts.keeps {k : RestartCaller} (hr : c.Restarts σ k)
    (hpc : c.pc.inWrite = decide (k = .writer)) (hat : c.At σ c.pc) (hown : c.own = [])
    (hw : k = .writer → c.Pinned σ 0 ∧ c.Writes σ) : c.Local σ := by
  obtain ⟨hw1, -, hk⟩ := hr
  cases k with
  | writer =>
    obtain ⟨hpin, hwr⟩ := hw rfl
    refine ⟨fun k hk' => ?_, fun _ => hwr, fun _ => hown, hat⟩
    obtain rfl := Option.some_inj.1 (hk.1.symm.trans hk')
    exact hpin
  | checkpointer => exact .outside hk.1.readLock (not_writing hpc) hown hat

theorem Local.restarts_own {k : RestartCaller} (h : c.Local σ) (hr : c.Restarts σ k)
    (hpc : c.pc.inWrite = decide (k = .writer)) : c.own = [] := by
  cases k with
  | writer => exact hr.2.2.2.2.own
  | checkpointer => exact h.noOwn (not_writing hpc)

/-- The store of the header of the new generation. -/
theorem Local.restartHdr {k : RestartCaller} (hσ : σ.Ok) (h : c.Local σ)
    (hpc : c.pc = .restart k .hdr0) :
    WalConn.Local
      { c with hdr := c.hdr.restart, nCkpt := c.nCkpt + 1, pc := .restart k .nBackfill }
      (σ.restart c.hdr.restart) := by
  have hat := h.here
  rw [hpc] at hat
  obtain ⟨hr, hle, -⟩ := hat
  have hin : c.pc.inWrite = decide (k = .writer) := by rw [hpc]; cases k <;> rfl
  have hown := h.restarts_own hr hin
  obtain ⟨hw, hh, hk⟩ := hr
  rw [hh] at hle ⊢
  have hok := hσ.restart hle
  have hr' : WalConn.Restarts
      { c with hdr := σ.hdr0.restart, nCkpt := c.nCkpt + 1, pc := .restart k .nBackfill }
      (σ.restart σ.hdr0.restart) k := by
    refine ⟨hw, rfl, ?_⟩
    cases k with
    | writer =>
      obtain ⟨hk0, hck, hj⟩ := hk
      exact ⟨hk0, hck, hj.own, hj.appended, hj.pList, hj.pages, hj.iFirst⟩
    | checkpointer =>
      obtain ⟨hhdr, hck⟩ := hk
      exact ⟨⟨⟨hhdr.readLock, hhdr.writeLock, hhdr.ckptLock, hhdr.mode⟩, hok.seen, fun _ => rfl⟩,
        hck⟩
  refine hr'.keeps (by cases k <;> rfl) ⟨hr', rfl⟩ hown fun hkw => ?_
  subst hkw
  have hwr := h.writes ⟨hw, hin⟩
  have hp := h.pinned 0 hk.1
  refine ⟨⟨by decide, hok.seen, ?_, fun _ => hwr.snap, fun h0 => absurd rfl h0,
    fun h0 => absurd rfl h0, fun h0 => absurd rfl h0, fun _ hs => absurd hs (by simp [Pc.storingBackfill]),
    fun _ => hown⟩, rfl, ?_, fun j x hx => ?_, hwr.snap, fun d hd => ?_⟩
  · have := hp.shows
    rw [if_pos rfl] at this ⊢
    exact this.restart
  · change Indexes _ (c.pages (σ.restart σ.hdr0.restart))
    rw [pages_of_own hown]
    exact hok.indexes
  · change c.own[j]? = some x at hx
    rw [hown] at hx
    exact absurd hx (by simp)
  · exact ⟨(hwr.savepoints d hd).1.trans (Nat.le_succ _), Nat.zero_le _⟩

/-- What the stores after the header change is nothing that the connection knows. -/
theorem Local.restartStore {k : RestartCaller} {i i' : RestartStore} (h : c.Local σ)
    (hpc : c.pc = .restart k i) (hat : WalConn.Restarts c σ k ∧ c.hdr.mxFrame = 0)
    (hh : σ'.hdr0 = σ.hdr0) (hl : σ'.log = σ.log) (hst : σ'.state = σ.state)
    (hix : σ'.apWiData = σ.apWiData) (hwal : σ'.wal = σ.wal) (hdb : σ'.db = σ.db)
    (hb : k = .writer → σ'.nBackfill = 0)
    (hq : WalConn.Restarts { c with pc := .restart k i' } σ' k → c.hdr.mxFrame = 0 →
      WalConn.At { c with pc := .restart k i' } σ' (.restart k i')) :
    WalConn.Local { c with pc := .restart k i' } σ' := by
  obtain ⟨hr, h0⟩ := hat
  have hin : c.pc.inWrite = decide (k = .writer) := by
    rw [hpc]
    cases k <;> rfl
  have hown := h.restarts_own hr hin
  have hr' : WalConn.Restarts { c with pc := .restart k i' } σ' k := by
    obtain ⟨hw, hh', hk⟩ := hr.setPc (q := .restart k i')
    refine ⟨hw, hh'.trans hh.symm, ?_⟩
    cases k with
    | writer => exact hk
    | checkpointer =>
      exact ⟨⟨hk.1.toCheckpointing, seen_congr hh hl hst hk.1.seen, fun hw => hh ▸ hk.1.hdr hw⟩,
        hk.2⟩
  refine hr'.keeps (by cases k <;> rfl) (hq hr' h0) hown fun hkw => ?_
  subst hkw
  have hwr := h.writes ⟨hr.1, hin⟩
  have hp := h.pinned 0 hr.2.2.1
  refine ⟨⟨by decide, seen_congr hh hl hst hp.seen, ?_, fun _ => hst ▸ hwr.snap,
    fun h0 => absurd rfl h0, fun h0 => absurd rfl h0, fun h0 => absurd rfl h0,
    fun _ _ _ => (hb rfl).trans h0.symm, fun _ => hown⟩, hh ▸ hwr.hdr, ?_, ?_, hst ▸ hwr.snap,
    hwr.savepoints⟩
  · have hs := hp.shows
    rw [if_pos rfl] at hs ⊢
    intro p a ha r hr
    obtain rfl := hr.eq_zero
    rw [pageAt, if_pos rfl, hdb]
    exact hs p a ha 0 (.inr ⟨framesOf_zero, rfl⟩)
  · unfold pages
    rw [hix, hl]
    exact hwr.indexes
  · rw [hwal]
    exact hwr.wal

theorem keeps_restart [Inhabited α] (hσ : σ.Ok) (hc : c.Local σ)
    (h : RestartAct free σ c e σ' c') : c.Keeps σ σ' c' := by
  have hat := hc.here
  cases h with
  | @restartHdr1 k h =>
    rw [h] at hat
    obtain ⟨hr, hle⟩ := hat
    refine ⟨.hdr1 hr.1, hc.setHdr1 (by rw [h]; rfl) (by rw [h]; cases k <;> rfl) ?_⟩
    refine ⟨?_, hle, rfl⟩
    obtain ⟨hw, hh, hk⟩ := hr.setPc (q := .restart k .hdr0)
    refine ⟨hw, hh, ?_⟩
    cases k with
    | writer => exact hk
    | checkpointer =>
      exact ⟨⟨hk.1.toCheckpointing, @seen_congr _ σ (σ.setHdr1 c.hdr.restart) rfl rfl rfl _ hk.1.seen,
        hk.1.hdr⟩, hk.2⟩
  | @restartHdr0 k h =>
    have hl := hc.restartHdr hσ h
    rw [h] at hat
    obtain ⟨⟨hw, hh, hk⟩, hle, -⟩ := hat
    rw [hh] at hle hl ⊢
    refine ⟨.restart hw (Restarts.exRead h) ?_ hle, hl⟩
    cases k with
    | writer => exact .inl (.inl hk.1)
    | checkpointer => exact .inr hk.2
  | @restartBackfill k h =>
    rw [h] at hat
    obtain ⟨hr, h0⟩ := hat
    have h0' : σ.hdr0.mxFrame = 0 := hr.2.1 ▸ h0
    refine ⟨.zero hr.1 (Restarts.exRead h) h0', ?_⟩
    exact hc.restartStore h ⟨hr, h0⟩ rfl rfl rfl rfl rfl rfl
      (fun _ => rfl) fun hr h0 => ⟨hr, h0⟩
  | @restartMark k i h h1 hi =>
    rw [h] at hat
    refine ⟨.mark (Restarts.exRead h i h1 hi), ?_⟩
    refine hc.restartStore h hat rfl rfl rfl rfl rfl rfl (fun hk => ?_)
      fun hr h0 => ⟨hr, h0⟩
    subst hk
    have hr := hat.1
    have hwr := hc.writes ⟨hr.1, by rw [h]; rfl⟩
    exact ((hc.pinned 0 hr.2.2.1).zero rfl (by rw [h]; rfl) hwr.hdr).trans hat.2
  | @restarted k i h hi =>
    refine ⟨.none, hc.goto h (fun _ _ => ?_) rfl fun ⟨hr, h0⟩ => ?_⟩
    · cases k <;> rfl
    · cases k with
      | writer => exact hr
      | checkpointer => exact ⟨hr, h0⟩
  | truncateWal h =>
    rw [h] at hat
    obtain ⟨⟨hw, hh, hk⟩, h0⟩ := hat
    have h0' : σ.hdr0.mxFrame = 0 := hh ▸ h0
    refine ⟨.wal hw fun f hpos hf => absurd hpos (by omega), ?_⟩
    refine .outside hk.1.readLock (not_writing rfl) (hc.noOwn (not_writing (by rw [h]; rfl)))
      ⟨hw, hh, ?_, hk.2⟩
    exact ⟨⟨hk.1.readLock, hk.1.writeLock, hk.1.ckptLock, hk.1.mode⟩,
      @seen_congr _ σ (σ.setWal fun _ => default) rfl rfl rfl _ hk.1.seen, hk.1.hdr⟩
  | @unlockRestart k h =>
    refine ⟨.none, hc.goto h (fun _ _ => ?_) rfl fun ⟨hw, hh, hk⟩ => ?_⟩
    · cases k <;> rfl
    · cases k with
      | writer => exact ⟨hw, hk⟩
      | checkpointer => exact ⟨hk.1.readLock, hw.le⟩

end WalConn

end Btreelite
