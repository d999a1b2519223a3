import Btreelite.WalMoves

/-!
# The connections together

Locks keep the steps of two connections from disturbing each other, so every state that
connections come to has the invariant of the shared memory and of each connection.
-/

namespace Btreelite

open WalShared

variable {ι α : Type}

/-! ## Two connections -/

section Pair

variable {free : FreeLocks} {c c' d : WalConn α} {σ σ' : WalShared α} {e : WalEvent α}

/-- The locks that `d` leaves free. -/
structure FreeLocks.Against (free : FreeLocks) (d : WalConn α) : Prop where
  write : free.write → d.writeLock = 0
  ckpt : free.ckpt → d.ckptLock = false
  ex : ∀ k, free.ex k → ¬ d.exRead k ∧ ¬ d.shRead k
  sh : ∀ k, free.sh k → ¬ d.exRead k

namespace WalConn

theorem keeps [Inhabited α] (hσ : σ.Ok) (hc : c.Local σ) (hs : c.Settled σ)
    (h : Act free σ c e σ' c') : c.Keeps σ σ' c' := by
  cases h with
  | hdr h => exact keeps_hdr hσ hc hs h
  | begin h => exact keeps_begin hσ hc h
  | read h => exact keeps_read hσ hc h
  | undo h => exact keeps_undo hσ hc h
  | frames h => exact keeps_frames hσ hc hs h
  | restart h => exact keeps_restart hσ hc h
  | ckpt h => exact keeps_ckpt hσ hc h
  | backfill h => exact keeps_backfill hσ hc h

theorem Locks.apart_left (hl : c.Locks free c') (hf : free.Against d) (hp : c.Apart d) :
    c'.Apart d where
  write h := (hl.write h).elim hp.write hf.write
  ckpt h := (hl.ckpt h).elim hp.ckpt hf.ckpt
  read k h := (hl.ex k h).elim (hp.read k) (hf.ex k)

theorem Locks.apart_right (hl : c.Locks free c') (hf : free.Against d) (hp : d.Apart c) :
    d.Apart c' where
  write hd := by
    by_contra h
    rcases hl.write h with h | h
    · exact h (hp.write hd)
    · exact hd (hf.write h)
  ckpt hd := by
    by_contra h
    rcases hl.ckpt (Bool.not_eq_false _ ▸ h) with h | h
    · rw [hp.ckpt hd] at h
      cases h
    · rw [hf.ckpt h] at hd
      cases hd
  read k hd := by
    obtain ⟨hex, hsh⟩ := hp.read k hd
    refine ⟨fun h => ?_, fun h => ?_⟩
    · exact (hl.ex k h).elim hex fun h => (hf.ex k h).1 hd
    · exact (hl.sh k h).elim hsh fun h => hf.sh k h hd

theorem Local.seen_of_copies (h : d.Local σ) (hc : d.pc.copies = true) : σ.Seen d.hdr := by
  have hat := h.here
  generalize d.pc = q at hat hc
  cases q
  case ckptMark | ckptTry | ckptSet | ckptUnlock | ckptIter | ckptRead | ckptLockZero | ckptLoad
      | ckptSalt => exact hat.1.seen
  case ckptInit => exact HasHdr.seen (Copies.toHasHdr hat)
  case ckptCopy | ckptWrite | ckptSize | ckptTrunc | ckptPublish => exact hat.1.seen
  all_goals cases hc

/-- The connection that took a step is the checkpoint. -/
theorem Pair.act_left [Inhabited α] (hσ : σ.Ok) (hc : c.Local σ) (hd : d.Local σ)
    (hf : free.Against d) (h : Act free σ c e σ' c') (hp : c.Pair d σ) : c'.Pair d σ' := by
  refine ⟨h.locks.apart_left hf hp.apart, h.waits hc hd (fun k hk => (hf.ex k hk).2) hp.waits, ?_⟩
  intro s i hpc hi h0 p a ha
  obtain ⟨hsize, hmx, rfl, hh⟩ := h.trunc hpc
  have hat := hc.here
  rw [hsize] at hat
  have hb : c.Backfills σ' s := hat.1
  have hpast := hb.seen.past hb.salt
  have hle := hb.le
  have hlast : c.hdr = σ'.hdr0 := hpast.last (le_antisymm hpast.mxFrame (hmx ▸ hle))
  have hpin := hd.pinned i hi
  have hpast' := hpin.seen.past (hpin.salt h0)
  have hge : σ'.hdr0.mxFrame ≤ d.hdr.mxFrame := by
    rcases hp.waits i hi h0 (hb.salt.trans (hpin.salt h0).symm) with hle | hsafe
    · exact hlast ▸ hle
    · rw [hsize] at hsafe
      exact hmx ▸ hsafe
  have hsnap := hpin.current (hpast'.last (le_antisymm hpast'.mxFrame hge))
  left
  rw [hh, hlast]
  exact hσ.pages p a (hsnap ▸ ha)

/-- The connection that took a step is the reader. -/
theorem Pair.act_right [Inhabited α] (hσ' : σ'.Ok) (hc : c.Local σ) (hc' : c'.Local σ')
    (hd' : d.Local σ') (hf : free.Against d) (h : Act free σ c e σ' c') (hp : d.Pair c σ) :
    d.Pair c' σ' := by
  refine ⟨h.locks.apart_right hf hp.apart, fun i hi h0 hs => ?_, fun s i hpc hi h0 p a ha => ?_⟩
  · rcases h.reader hc hi with he | ⟨hr, hh, -⟩
    · cases hcp : d.pc.copies with
      | false => exact .inr (Pc.safe_of_copies hcp i _)
      | true =>
        rw [he] at hs ⊢
        exact .inl ((hd'.seen_of_copies hcp).past hs).mxFrame
    · rw [hh] at hs ⊢
      exact hp.waits i hr h0 hs
  · rcases h.reader hc hi with he | ⟨hr, hh, hsn, hl⟩
    · have hat := hd'.here
      rw [hpc] at hat
      have hb : d.Backfills σ' s := hat.1
      rw [(hc'.pinned i hi).current he] at ha
      refine ((hb.seen.past hb.salt).pages p a ha).imp_right fun ⟨f, hf, hfp⟩ => ⟨f, hf, ?_, hfp⟩
      rw [he, ← hσ'.length]
      exact le_length_of_getElem? hfp
    · rw [hh, hl]
      exact hp.bounds s i hpc hr h0 p a (hsn ▸ ha)

/-- Neither took the step. -/
theorem Pair.carry {d' : WalConn α} (hd : d'.Local σ) (hc : d'.Carry σ σ') (hp : d.Pair d' σ) :
    d.Pair d' σ' := by
  refine ⟨hp.apart, hp.waits, fun s i hpc hi h0 p a ha => ?_⟩
  obtain ⟨-, l, hl⟩ := hc.salt i hi (by omega) (hd.pinned i hi).lt
  refine (hp.bounds s i hpc hi h0 p a ha).imp_right fun ⟨f, hf, hle, hfp⟩ => ⟨f, hf, hle, ?_⟩
  rw [← hl, List.getElem?_append_left (List.getElem?_eq_some_iff.1 hfp).1]
  exact hfp

theorem Local.writeLock_of_storingHdr (h : c.Local σ) (hs : c.pc.storingHdr = true) :
    c.writeLock = 1 := by
  have hat := h.here
  generalize c.pc = q at hat hs
  cases q
  case publish0 => exact hat.1.writeLock
  case restart k ph =>
    cases ph
    case hdr0 => exact hat.1.1
    all_goals cases hs
  all_goals cases hs

theorem Local.writeLock_of_storingBackfill (h : c.Local σ) (hs : c.pc.storingBackfill = true) :
    c.writeLock = 1 := by
  have hat := h.here
  generalize c.pc = q at hat hs
  cases q
  case restart k ph =>
    cases ph
    case nBackfill => exact hat.1.1
    all_goals cases hs
  all_goals cases hs

end WalConn

end Pair

/-! ## Every reachable state -/

namespace WalSystem

variable {s t : WalSystem ι α} {i : ι} {e : WalEvent α}

structure Inv (s : WalSystem ι α) : Prop where
  ok : s.shared.Ok
  conn : ∀ i, (s.conn i).Local s.shared
  pair : ∀ i j, i ≠ j → (s.conn i).Pair (s.conn j) s.shared
  copies : s.shared.hdr1 = s.shared.hdr0 ∨ ∃ i, (s.conn i).pc.storingHdr = true
  backfill : s.shared.nBackfill ≤ s.shared.hdr0.mxFrame ∨
    ∃ i, (s.conn i).pc.storingBackfill = true

theorem Inv.settled (hs : s.Inv) (i : ι) : (s.conn i).Settled s.shared := by
  refine ⟨fun hw hno => ?_, fun hw hno => ?_⟩
  · refine hs.copies.resolve_right fun ⟨j, hj⟩ => ?_
    have hwj := (hs.conn j).writeLock_of_storingHdr hj
    rcases eq_or_ne i j with rfl | hne
    · rw [hno] at hj
      cases hj
    · have := (hs.pair i j hne).apart.write hw
      omega
  · refine hs.backfill.resolve_right fun ⟨j, hj⟩ => ?_
    have hwj := (hs.conn j).writeLock_of_storingBackfill hj
    rcases eq_or_ne i j with rfl | hne
    · rw [hno] at hj
      cases hj
    · have := (hs.pair i j hne).apart.write (by omega)
      omega

theorem free_against (s : WalSystem ι α) {i j : ι} (hne : j ≠ i) :
    (s.free i).Against (s.conn j) :=
  ⟨fun h => h j hne, fun h => h j hne, fun _ h => h j hne, fun _ h => h j hne⟩

theorem Inv.step [DecidableEq ι] [Inhabited α] (hs : s.Inv) (h : s.Step i e t) : t.Inv := by
  obtain ⟨hact⟩ := h
  rename_i σ' c'
  have hkeeps := WalConn.keeps hs.ok (hs.conn i) (hs.settled i) hact
  have hok' := hkeeps.effect.ok hs.ok
  have hcarry : ∀ j, j ≠ i → (s.conn j).Carry s.shared σ' := fun j hj =>
    hkeeps.effect.carry hs.ok (hs.pair i j hj.symm) (hs.pair j i hj) (hs.conn j)
  have hconn : ∀ j, (Function.update s.conn i c' j).Local σ' := by
    intro j
    rcases eq_or_ne j i with rfl | hj
    · rw [Function.update_self]
      exact hkeeps.here
    · rw [Function.update_of_ne hj]
      exact (hs.conn j).carry hs.ok hok' (hcarry j hj)
  refine ⟨hok', hconn, fun j k hjk => ?_, ?_, ?_⟩
  · change (Function.update s.conn i c' j).Pair (Function.update s.conn i c' k) σ'
    rcases eq_or_ne j i with rfl | hj
    · rw [Function.update_self, Function.update_of_ne hjk.symm]
      exact .act_left hs.ok (hs.conn j) (hs.conn k) (s.free_against hjk.symm) hact
        (hs.pair j k hjk)
    · rw [Function.update_of_ne hj]
      rcases eq_or_ne k i with rfl | hk
      · rw [Function.update_self]
        have := hconn j
        rw [Function.update_of_ne hj] at this
        exact .act_right hok' (hs.conn k) hkeeps.here this (s.free_against hj) hact (hs.pair j k hj)
      · rw [Function.update_of_ne hk]
        exact (hs.pair j k hjk).carry (hs.conn k) (hcarry k hk)
  · rcases hact.copies (hs.conn i) with ⟨hno, h0, h1⟩ | he | hst
    · refine hs.copies.imp (fun he => ?_) fun ⟨j, hj⟩ => ⟨j, ?_⟩
      · exact h1.trans (he.trans h0.symm)
      · have hne : j ≠ i := fun e => by
          rw [e, hno] at hj
          cases hj
        change (Function.update s.conn i c' j).pc.storingHdr = true
        rwa [Function.update_of_ne hne]
    · exact .inl he
    · refine .inr ⟨i, ?_⟩
      change (Function.update s.conn i c' i).pc.storingHdr = true
      rwa [Function.update_self]
  · rcases hact.backfilled (hs.conn i) with ⟨hno, hb, hmx⟩ | he | hst
    · refine hs.backfill.imp (fun he => ?_) fun ⟨j, hj⟩ => ⟨j, ?_⟩
      · exact hb.trans_le (he.trans hmx)
      · have hne : j ≠ i := fun e => by
          rw [e, hno] at hj
          cases hj
        change (Function.update s.conn i c' j).pc.storingBackfill = true
        rwa [Function.update_of_ne hne]
    · exact .inl he
    · refine .inr ⟨i, ?_⟩
      change (Function.update s.conn i c' i).pc.storingBackfill = true
      rwa [Function.update_self]

theorem Init.inv (h : s.Init) : s.Inv := by
  have hframes : ∀ m ≤ 1, ∀ p, framesOf s.shared.log m s.shared.hdr0.mxFrame p
      = framesOf s.shared.log 1 s.shared.hdr0.mxFrame p := fun m hm p => by
    ext f
    refine and_congr_right fun h0 => and_congr_left fun _ => ?_
    omega
  have hclosed := h.closed
  refine ⟨⟨h.length, h.indexes, fun m hm p a ha r hr => ?_, fun p a ha => ?_⟩, fun i => ?_,
    fun i j _ => ⟨⟨fun hw => absurd (hclosed i).writeLock hw, fun hw => ?_, fun k hk => ?_⟩,
      fun k hk => ?_, fun b k hk => ?_⟩, .inl h.copies, .inl ?_⟩
  · rw [h.nBackfill] at hm
    rw [hframes m hm] at hr
    have hst := h.state p r hr
    rw [ha] at hst
    split_ifs at hst
    exact (Option.some_inj.1 hst).symm
  · obtain ⟨r, hr⟩ := exists_isLatest s.shared.log 1 p s.shared.hdr0.mxFrame
    have hst := h.state p r hr
    rw [ha] at hst
    split_ifs at hst with hp
    exact hp.2
  · have hcl := hclosed i
    refine .outside hcl.readLock (WalConn.not_writing (by rw [hcl.pc]; rfl)) hcl.own ?_
    rw [hcl.pc]
    exact ⟨hcl.readLock, hcl.writeLock, hcl.ckptLock, fun h => by cases h⟩
  · rw [(hclosed i).ckptLock] at hw
    cases hw
  · rw [WalConn.exRead, (hclosed i).pc] at hk
    exact hk.elim
  · rw [(hclosed j).readLock] at hk
    cases hk
  · rw [(hclosed i).pc] at hk
    cases hk
  · rw [h.nBackfill]
    exact Nat.zero_le _

theorem Run.inv [DecidableEq ι] [Inhabited α] {es : List (ι × WalEvent α)} (hs : s.Inv)
    (h : s.Run es t) : t.Inv := by
  induction h with
  | nil => exact hs
  | snoc _ hstep ih => exact ih.step hstep

/-- The two copies of the header differ only while they are stored. -/
theorem Inv.not_recover (hs : s.Inv) (i : ι) : (s.conn i).pc ≠ .recover := fun h => by
  have hat := (hs.conn i).here
  rw [h] at hat
  exact hat

end WalSystem

end Btreelite
