import Btreelite.WalInvariant

/-!
# What a step stores

Each store of the protocol, with what its connection holds and knows when it makes it. That is
enough for the shared invariant and for every other connection.
-/

namespace Btreelite

open WalShared

variable {α : Type} {c d : WalConn α} {σ σ' : WalShared α}

namespace WalConn

/-! ## Two connections -/

/-- Two connections do not hold locks that exclude each other. -/
structure Apart (c d : WalConn α) : Prop where
  write : c.writeLock ≠ 0 → d.writeLock = 0
  ckpt : c.ckptLock = true → d.ckptLock = false
  read : ∀ k, c.exRead k → ¬ d.exRead k ∧ ¬ d.shRead k

/-- A checkpoint of later frames than the reader's has still to look at the mark of the reader,
or stops at it. -/
def Waits (c d : WalConn α) : Prop :=
  ∀ i, d.readLock = some i → i ≠ 0 → c.hdr.aSalt = d.hdr.aSalt →
    c.hdr.mxFrame ≤ d.hdr.mxFrame ∨ c.pc.safe i d.hdr.mxFrame

/-- A checkpoint about to truncate the database file keeps the pages that the reader takes from
there. -/
def Bounds (c d : WalConn α) (σ : WalShared α) : Prop :=
  ∀ s i, c.pc = .ckptTrunc s → d.readLock = some i → i ≠ 0 → ∀ p a, d.snap p = some a →
    p ≤ c.hdr.nPage ∨ ∃ f, c.hdr.mxFrame < f ∧ f ≤ d.hdr.mxFrame ∧ σ.log[f - 1]? = some p

structure Pair (c d : WalConn α) (σ : WalShared α) : Prop where
  apart : c.Apart d
  waits : c.Waits d
  bounds : c.Bounds d σ

/-! ## Stores -/

/-- The stores that connection `c` makes. -/
inductive Effect [Inhabited α] (c : WalConn α) (σ : WalShared α) : WalShared α → Prop
  | none : Effect c σ σ
  | mark {k : ℕ} {v : Option ℕ} (hx : c.exRead k) : Effect c σ (σ.setMark k v)
  | hdr1 {h : Hdr} (hw : c.writeLock = 1) : Effect c σ (σ.setHdr1 h)
  | wal {wal : ℕ → α} (hw : c.writeLock = 1)
      (h : ∀ f, 0 < f → f ≤ σ.hdr0.mxFrame → wal f = σ.wal f) :
    Effect c σ (σ.setWal wal)
  | index {w : WalIndex} (hw : c.writeLock = 1) (h : Indexes w σ.log) : Effect c σ (σ.setIndex w)
  | page {s p f : ℕ} {a : α} (hb : c.Backfills σ s) (hx : c.exRead 0)
      (hs : ∀ i m, c.pc.safe i m → s ≤ m) (hf : f ∈ framesOf σ.log (σ.nBackfill + 1) s p) :
    Effect c σ (σ.setDb (Function.update σ.db p a))
  | truncate {s : ℕ} (hb : c.Backfills σ s) (hx : c.exRead 0) (hpc : c.pc = .ckptTrunc s) :
    Effect c σ (σ.setDb fun p => if p ≤ c.hdr.nPage then σ.db p else default)
  | backfill {s : ℕ} (hb : c.Backfills σ s) (hall : ∀ b, σ.Copied c.hdr s b) :
    Effect c σ (σ.setBackfill s)
  | restart (hw : c.writeLock = 1) (hx : ∀ i, 1 ≤ i → i < WAL_NREADER → c.exRead i)
      (h0 : c.shRead 0 ∨ c.ckptLock = true) (hle : σ.hdr0.mxFrame ≤ σ.nBackfill) :
    Effect c σ (σ.restart σ.hdr0.restart)
  | zero (hw : c.writeLock = 1) (hx : ∀ i, 1 ≤ i → i < WAL_NREADER → c.exRead i)
      (h0 : σ.hdr0.mxFrame = 0) : Effect c σ (σ.setBackfill 0)
  | commit (hw : c.writeLock = 1) (h : c.Writes σ) (hne : c.own ≠ [])
      (hb : σ.nBackfill ≤ σ.hdr0.mxFrame) :
    Effect c σ (σ.commit c.newHdr (c.own.map Prod.fst) (σ.state.apply c.own c.nTruncate))

theorem Writes.newHdr_mxFrame (h : c.Writes σ) :
    c.newHdr.mxFrame = σ.hdr0.mxFrame + c.own.length := by
  rw [← h.hdr]
  rfl

theorem Effect.ok [Inhabited α] (h : c.Effect σ σ') (hσ : σ.Ok) : σ'.Ok := by
  cases h with
  | none => exact hσ
  | mark => exact hσ.setMark
  | hdr1 => exact hσ.setHdr1
  | wal hw h => exact hσ.setWal h
  | index hw h => exact hσ.setIndex h
  | @page s p f a hb hx hs hf =>
    refine hσ.setDb fun q b hq => ?_
    rcases eq_or_ne q p with rfl | hne
    · have hs' := hb.le.trans (hb.seen.past hb.salt).mxFrame
      exact .inl ⟨f, hf.1, hf.2.1, hf.2.2.1.trans hs', hf.2.2.2⟩
    · exact .inr (Function.update_of_ne hne ..)
  | @truncate s hb hx hpc =>
    refine hσ.setDb fun q b hq => ?_
    rcases (hb.seen.past hb.salt).pages q b hq with hle | ⟨f, hf, hfp⟩
    · exact .inr (if_pos hle)
    · have hlen := le_length_of_getElem? hfp
      rw [hσ.length] at hlen
      have := hb.lt
      have := hb.le
      exact .inl ⟨f, mem_framesOf (by omega) (by omega) hlen hfp⟩
  | backfill hb hall => exact hσ.publish (hb.seen.past hb.salt) hb.le hall
  | restart hw hx h0 hle => exact hσ.restart hle
  | zero hw hx h0 => exact hσ.setBackfill_le (Nat.zero_le _)
  | commit hw h hne hb =>
    refine hσ.commit (h := c.newHdr) h.newHdr_mxFrame h.indexes (fun j x hx => ?_) hb
    rw [← h.hdr]
    exact h.wal j x hx

theorem seen_congr (hh : σ'.hdr0 = σ.hdr0) (hl : σ'.log = σ.log) (hst : σ'.state = σ.state)
    {h : Hdr} (hs : σ.Seen h) : σ'.Seen h := by
  refine ⟨hh ▸ hs.1, fun he => ?_⟩
  rw [hh] at he
  have hp := hs.past he
  exact ⟨hh ▸ hp.mxFrame, fun e => (hp.last (hh ▸ e)).trans hh.symm,
    fun p a ha => hl ▸ hp.pages p a (hst ▸ ha)⟩

/-- Stores that do not touch the header, the log or `nBackfill`. -/
theorem Carry.of_same_hdr (hh : σ'.hdr0 = σ.hdr0) (hl : σ'.log = σ.log)
    (hst : σ'.state = σ.state) (hb : σ'.nBackfill = σ.nBackfill)
    (hm : ∀ k, d.shRead k → σ'.aReadMark k = σ.aReadMark k)
    (hlock : d.writeLock ≠ 0 →
      σ'.hdr1 = σ.hdr1 ∧ σ'.apWiData = σ.apWiData ∧ σ'.wal = σ.wal)
    (hshows : ∀ k, d.readLock = some k → d.Pinned σ k →
      σ'.Shows d.minFrame (if k = 0 then 0 else d.hdr.mxFrame) d.snap)
    (hckpt : d.ckptLock = true →
      (∀ f, 0 < f → f ≤ σ.hdr0.mxFrame → σ'.wal f = σ.wal f) ∧ σ'.db = σ.db) :
    d.Carry σ σ' where
  seen _ hs := seen_congr hh hl hst hs
  lock hw := ⟨hh, (hlock hw).1, hl, hst, (hlock hw).2.1, (hlock hw).2.2, hb.ge⟩
  current _ he := ⟨he.trans hh, hst⟩
  zero _ _ he := hb.trans he
  mark := hm
  minFrame _ _ _ _ := hb.ge
  salt _ _ _ _ := ⟨by rw [hh], by rw [hl]⟩
  shows := hshows
  backfill _ := hb.le
  ckpt hck hs _ he := by
    rw [hh] at he
    obtain ⟨hwal, hdb⟩ := hckpt hck
    exact ⟨he, hb, by rw [hl], fun f h0 hf => hwal f h0 (hf.trans (hs.past he).mxFrame), hdb⟩
  salt0 _ := by rw [hh]

/-- Only a checkpoint holds read lock `0` exclusively. -/
theorem Local.ckptLock_of_exRead (h : d.Local σ) (hx : d.exRead 0) : d.ckptLock = true := by
  have hat := h.here
  unfold exRead at hx
  generalize hq : d.pc = q at hat hx
  cases q
  case setMark u i | unlockMark u i =>
    obtain rfl : 0 = i := hx
    exact absurd hat.2.2.1 (by decide)
  case ckptSet i s | ckptUnlock i s =>
    obtain rfl : 0 = i := hx
    exact absurd hat.2 (by decide)
  case restart | truncateWal | unlockRestart => exact absurd hx.1 (by decide)
  case ckptLoad | ckptSalt => exact hat.1.locked
  case ckptCopy | ckptWrite | ckptSize | ckptTrunc | ckptPublish => exact hat.1.locked
  case ckptUnlockZero => exact hat.2
  all_goals exact hx.elim

/-- The frames that a checkpoint copies lie in the range of the reader it waits for. -/
theorem Pair.copy_le {s k : ℕ} (hp : c.Pair d σ) (hb : c.Backfills σ s)
    (hs : ∀ i m, c.pc.safe i m → s ≤ m) (hk : d.readLock = some k) (hk0 : k ≠ 0)
    (hpin : d.Pinned σ k) : s ≤ d.hdr.mxFrame := by
  rcases hp.waits k hk hk0 (hb.salt.trans (hpin.salt hk0).symm) with hle | hsafe
  · exact hb.le.trans hle
  · exact hs k _ hsafe

theorem Effect.carry [Inhabited α] (h : c.Effect σ σ') (hσ : σ.Ok) (hp : c.Pair d σ)
    (hp' : d.Pair c σ) (hd : d.Local σ) : d.Carry σ σ' := by
  have hshows : ∀ k, d.readLock = some k → d.Pinned σ k →
      σ.Shows d.minFrame (if k = 0 then 0 else d.hdr.mxFrame) d.snap := fun k _ hk => hk.shows
  have hmx : ∀ k, d.readLock = some k → d.Pinned σ k →
      (if k = 0 then 0 else d.hdr.mxFrame) ≤ σ.hdr0.mxFrame := by
    intro k _ hpin
    split_ifs with h0
    · exact Nat.zero_le _
    · exact (hpin.seen.past (hpin.salt h0)).mxFrame
  have hnoLock : c.writeLock = 1 → d.writeLock = 0 := fun hw => hp.apart.write (by omega)
  cases h with
  | none =>
    exact .of_same_hdr rfl rfl rfl rfl (fun _ _ => rfl) (fun _ => ⟨rfl, rfl, rfl⟩) hshows
      fun _ => ⟨fun _ _ _ => rfl, rfl⟩
  | @mark k v hx =>
    refine .of_same_hdr rfl rfl rfl rfl (fun i hi => ?_) (fun _ => ⟨rfl, rfl, rfl⟩) hshows
      fun _ => ⟨fun _ _ _ => rfl, rfl⟩
    refine Function.update_of_ne ?_ _ _
    intro e
    exact (hp.apart.read k hx).2 (e ▸ hi)
  | hdr1 hw =>
    exact .of_same_hdr rfl rfl rfl rfl (fun _ _ => rfl) (fun hw' => absurd (hnoLock hw) hw') hshows
      fun _ => ⟨fun _ _ _ => rfl, rfl⟩
  | wal hw hwal =>
    exact .of_same_hdr rfl rfl rfl rfl (fun _ _ => rfl) (fun hw' => absurd (hnoLock hw) hw')
      (fun k hk hpin => hpin.shows.setWal fun f h0 hf => hwal f h0 (hf.trans (hmx k hk hpin)))
      fun _ => ⟨hwal, rfl⟩
  | index hw hw' =>
    exact .of_same_hdr rfl rfl rfl rfl (fun _ _ => rfl) (fun hw' => absurd (hnoLock hw) hw') hshows
      fun _ => ⟨fun _ _ _ => rfl, rfl⟩
  | @page s p f a hb hx hs hf =>
    have hck : d.ckptLock = false := hp.apart.ckpt hb.locked
    refine .of_same_hdr rfl rfl rfl rfl (fun _ _ => rfl) (fun _ => ⟨rfl, rfl, rfl⟩)
      (fun k hk hpin => hpin.shows.setDb fun q b _ => ?_)
      fun h => absurd hck (by rw [h]; decide)
    have hk0 : k ≠ 0 := fun h0 => (hp.apart.read 0 hx).2 (.inl (h0 ▸ hk))
    rcases eq_or_ne q p with rfl | hne
    · have hmin := hpin.minFrame hk0
      have hle := hp.copy_le hb hs hk hk0 hpin
      obtain ⟨h0, h1, h2, h3⟩ := hf
      rw [if_neg hk0]
      exact .inl ⟨f, mem_framesOf h0 (by omega) (by omega) h3⟩
    · exact .inr (Function.update_of_ne hne ..)
  | @truncate s hb hx hpc =>
    have hck : d.ckptLock = false := hp.apart.ckpt hb.locked
    refine .of_same_hdr rfl rfl rfl rfl (fun _ _ => rfl) (fun _ => ⟨rfl, rfl, rfl⟩)
      (fun k hk hpin => hpin.shows.setDb fun q b hq => ?_)
      fun h => absurd hck (by rw [h]; decide)
    have hk0 : k ≠ 0 := fun h0 => (hp.apart.read 0 hx).2 (.inl (h0 ▸ hk))
    rw [if_neg hk0]
    rcases hp.bounds s k hpc hk hk0 q b hq with hle | ⟨f, hf, hfm, hfp⟩
    · exact .inr (if_pos hle)
    · have := hpin.minFrame hk0
      have := hb.lt
      have := hb.le
      exact .inl ⟨f, mem_framesOf (by omega) (by omega) hfm hfp⟩
  | @backfill s hb hall =>
    have hck : ¬ d.ckptLock = true := by
      rw [hp.apart.ckpt hb.locked]
      decide
    have hlt := hb.lt
    exact
      { seen := fun _ hs => @seen_congr _ σ (σ.setBackfill s) rfl rfl rfl _ hs
        lock := fun _ => ⟨rfl, rfl, rfl, rfl, rfl, rfl, hlt.le⟩
        current := fun _ he => ⟨he, rfl⟩
        zero := fun _ he he' => by
          have hle := (hb.seen.past hb.salt).mxFrame
          have := hb.le
          have he : d.hdr = σ.hdr0 := he
          rw [he] at he'
          omega
        mark := fun _ _ => rfl
        minFrame := fun _ _ _ _ => hlt.le
        salt := fun _ _ _ _ => ⟨rfl, List.prefix_rfl⟩
        shows := hshows
        backfill := fun h => absurd h hck
        ckpt := fun h => absurd h hck
        salt0 := fun _ => rfl }
  | restart hw hx h0 hle =>
    have hne : ∀ h : Hdr, σ.Seen h → h.aSalt ≠ σ.hdr0.restart.aSalt := by
      intro h hs e
      have hle := hs.1
      have e : h.aSalt = σ.hdr0.aSalt + 1 := e
      omega
    have hfree : ∀ k, d.shRead k → 1 ≤ k → ¬ k < WAL_NREADER := fun k hk h1 hlt =>
      (hp.apart.read k (hx k h1 hlt)).2 hk
    exact
      { seen := fun _ hs => hs.restart
        lock := fun hw' => absurd (hnoLock hw) hw'
        current := fun hs he => absurd (congrArg Hdr.aSalt he) (hne _ hs)
        zero := fun hs he => absurd (congrArg Hdr.aSalt he) (hne _ hs)
        mark := fun _ _ => rfl
        minFrame := fun _ _ _ _ => le_rfl
        salt := fun k hk h1 hlt => absurd hlt (hfree k (.inl hk) h1)
        shows := fun k hk hpin => by
          by_cases hk0 : k = 0
          · have := hpin.shows
            rw [if_pos hk0] at this ⊢
            exact this.restart
          · exact absurd hpin.lt (hfree k (.inl hk) (by omega))
        backfill := fun _ => le_rfl
        ckpt := fun _ hs _ he => absurd he (hne _ hs)
        salt0 := fun hx' => by
          rcases h0 with h0 | h0
          · exact absurd h0 (hp'.apart.read 0 hx').2
          · have := hd.ckptLock_of_exRead hx'
            rw [hp.apart.ckpt h0] at this
            exact absurd this (by decide) }
  | zero hw hx h0 =>
    exact
      { seen := fun _ hs => @seen_congr _ σ (σ.setBackfill 0) rfl rfl rfl _ hs
        lock := fun hw' => absurd (hnoLock hw) hw'
        current := fun _ he => ⟨he, rfl⟩
        zero := fun _ he _ => by
          have he : d.hdr = σ.hdr0 := he
          rw [he]
          exact h0.symm
        mark := fun _ _ => rfl
        minFrame := fun k hk h1 hlt => absurd hk (hp.apart.read k (hx k h1 hlt)).2
        salt := fun _ _ _ _ => ⟨rfl, List.prefix_rfl⟩
        shows := hshows
        backfill := fun _ => Nat.zero_le _
        ckpt := fun _ hs hpos he => by
          have := (hs.past he).mxFrame
          omega
        salt0 := fun _ => rfl }
  | commit hw hwr hne hb =>
    have hsalt : c.newHdr.aSalt = σ.hdr0.aSalt := by
      rw [← hwr.hdr]
      rfl
    have hmx' := hwr.newHdr_mxFrame
    have hpos : 0 < c.own.length := List.length_pos_iff.2 hne
    have hnew : ∀ h : Hdr, σ.Seen h → h ≠ c.newHdr := by
      intro h hs e
      have := (hs.past (e ▸ hsalt)).mxFrame
      rw [e] at this
      omega
    exact
      { seen := fun _ hs => hs.commit hσ hsalt hmx' hne
        lock := fun hw' => absurd (hnoLock hw) hw'
        current := fun hs he => absurd he (hnew _ hs)
        zero := fun hs he => absurd he (hnew _ hs)
        mark := fun _ _ => rfl
        minFrame := fun _ _ _ _ => le_rfl
        salt := fun _ _ _ _ => ⟨hsalt, List.prefix_append ..⟩
        shows := fun k hk hpin => hpin.shows.commit (hσ.length ▸ hmx k hk hpin)
        backfill := fun _ => le_rfl
        ckpt := fun _ _ _ he =>
          ⟨he.trans hsalt, rfl, List.prefix_append .., fun _ _ _ => rfl, rfl⟩
        salt0 := fun _ => hsalt }

end WalConn

end Btreelite
