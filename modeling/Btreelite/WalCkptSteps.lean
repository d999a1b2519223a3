import Btreelite.WalWriterSteps

/-!
# The steps of a checkpoint

A checkpoint reads the pages of all frames first and copies each page's last frame, in the order of
the page numbers, as far as no reader needs the older content.
-/

namespace Btreelite

open WalShared

variable {α : Type} {free : FreeLocks} {c c' : WalConn α} {σ σ' : WalShared α} {e : WalEvent α}

/-! ## The iterator -/

section Iterator

variable {pIter : List (ℕ × ℕ)} {iPrior : ℕ}

/-- The least page after `iPrior` in the list, with its last frame. -/
def IsNext (pIter : List (ℕ × ℕ)) (iPrior : ℕ) : Option (ℕ × ℕ) → Prop
  | none => ∀ x ∈ pIter, x.1 ≤ iPrior
  | some b => b ∈ pIter ∧ iPrior < b.1 ∧ (∀ x ∈ pIter, iPrior < x.1 → b.1 ≤ x.1) ∧
      ∀ x ∈ pIter, x.1 = b.1 → x.2 ≤ b.2

/-- One page more, as the loop takes it. -/
theorem IsNext.snoc {best : Option (ℕ × ℕ)} (h : IsNext pIter iPrior best) (x : ℕ × ℕ) :
    IsNext (pIter ++ [x]) iPrior (betterPage iPrior best x) := by
  unfold betterPage
  have hmem : ∀ {P : ℕ × ℕ → Prop}, (∀ y ∈ pIter, P y) → P x → ∀ y ∈ pIter ++ [x], P y := by
    intro P hP hx y hy
    rcases List.mem_append.1 hy with hy | hy
    · exact hP y hy
    · exact List.mem_singleton.1 hy ▸ hx
  have hself : x ∈ pIter ++ [x] := List.mem_append_right _ (List.mem_singleton_self x)
  split_ifs with hx
  · cases best with
    | none => exact hmem h hx
    | some b =>
      obtain ⟨hb, hlt, hmin, hlast⟩ := h
      refine ⟨List.mem_append_left _ hb, hlt, hmem hmin fun h => ?_, hmem hlast fun h => ?_⟩
      · omega
      · omega
  · cases best with
    | none =>
      refine ⟨hself, by omega, hmem (fun y hy hlt => ?_) fun _ => le_rfl,
        hmem (fun y hy he => ?_) fun _ => le_rfl⟩
      · have := h y hy
        omega
      · have := h y hy
        omega
    | some b =>
      obtain ⟨hb, hlt, hmin, hlast⟩ := h
      simp only []
      split_ifs with hless
      · refine ⟨hself, by omega, hmem (fun y hy hlt' => ?_) fun _ => le_rfl,
          hmem (fun y hy he => ?_) fun _ => le_rfl⟩
        · have := hmin y hy hlt'
          omega
        · have := hmin y hy (by omega)
          have := hlast y hy
          omega
      · exact ⟨List.mem_append_left _ hb, hlt, hmem hmin fun _ => by omega,
          hmem hlast fun _ => by omega⟩

theorem walIteratorNext_isNext (pIter : List (ℕ × ℕ)) (iPrior : ℕ) :
    IsNext pIter iPrior (walIteratorNext pIter iPrior) := by
  unfold walIteratorNext
  induction pIter using List.reverseRecOn with
  | nil => exact fun x hx => absurd hx List.not_mem_nil
  | append_singleton pIter x ih =>
    rw [List.foldl_append]
    exact ih.snoc x

end Iterator

theorem IsLatest.eq_of_mem {s : Set ℕ} {r r' : ℕ} (h : IsLatest s r) (h' : IsLatest s r')
    (hr : r' ∈ s) : r = r' := by
  rcases h with h | ⟨he, -⟩
  · exact le_antisymm (h'.le h.1) (h.2 hr)
  · exact absurd (he ▸ hr) (Set.notMem_empty r')

/-- The entry of a frame has its page. -/
theorem Indexes.walFramePgno {w : WalIndex} {log : List ℕ} {f : ℕ} (hw : Indexes w log)
    (hf : 0 < f) (hle : f ≤ log.length) : log[f - 1]? = some (walFramePgno w f) := by
  obtain ⟨hz, hz'⟩ := iZero_walFramePage hf
  have hb := hw.2 (walFramePage f) (by omega)
  rw [Btreelite.walFramePgno, hb.pgno _ (by unfold filled; omega),
    show iZero (walFramePage f) + (f - iZero (walFramePage f) - 1) = f - 1 by omega,
    List.getD_eq_getElem _ _ (by omega)]
  exact List.getElem?_eq_getElem _

namespace WalShared

/-- The pages before the next one of the iterator have nothing to copy. -/
theorem Copied.next {h : Hdr} {it : List (ℕ × ℕ)} {s iPrior b : ℕ} (hc : σ.Copied h s (iPrior + 1))
    (hit : σ.Iterates h.mxFrame it) (hs : s ≤ h.mxFrame)
    (hnone : ∀ x ∈ it, iPrior < x.1 → b ≤ x.1) : σ.Copied h s b := by
  intro p hp hpage g hg hlt hle
  rcases Nat.lt_or_ge p (iPrior + 1) with hp' | hp'
  · exact hc p hp' hpage g hg hlt hle
  · have hmem := hit.complete p g hlt (by omega) (hg.mem (by omega)).2.2.2
    have := hnone (p, g) hmem (by omega)
    simp only [] at this
    omega

/-- The iterator has the last frame of a page among those not copied yet. -/
theorem Iterates.latest {h : Hdr} {it : List (ℕ × ℕ)} {p f : ℕ} (hit : σ.Iterates h.mxFrame it)
    (hmem : (p, f) ∈ it) (hlast : ∀ x ∈ it, x.1 = p → x.2 ≤ f) (hlt : σ.nBackfill < f) :
    IsLatest (framesOf σ.log 0 h.mxFrame p) f := by
  obtain ⟨h0, hle, hp⟩ := hit.sound p f hmem
  refine isLatest_of_mem (mem_framesOf h0 (Nat.zero_le _) hle hp) ?_
  intro i ⟨i0, _, i2, i3⟩
  rcases Nat.lt_or_ge σ.nBackfill i with hi | hi
  · exact hlast (p, i) (hit.complete p i hi i2 i3) rfl
  · omega

/-- The checkpoint has written a page. -/
theorem Copied.write {h : Hdr} {s p f : ℕ} (hc : σ.Copied h s p)
    (hf : IsLatest (framesOf σ.log 0 h.mxFrame p) f) (hf0 : f ≠ 0) :
    (σ.setDb (Function.update σ.db p (σ.wal f))).Copied h s (p + 1) := by
  intro q hq hpage g hg hlt hle
  change Function.update σ.db p (σ.wal f) q = σ.wal g
  rcases Nat.lt_or_eq_of_le (Nat.le_of_lt_succ hq) with hq | rfl
  · rw [Function.update_of_ne (by omega)]
    exact hc q hq hpage g hg hlt hle
  · rw [Function.update_self, hg.eq_of_mem hf (hf.mem hf0)]

end WalShared

namespace WalConn

/-- Out of the transactions, a store leaves what the connection knows. -/
theorem Local.ckpt {q : Pc α} (h : c.Local σ) (hr : c.readLock = none)
    (hpc : c.pc.inWrite = false) (hq : q.inWrite = false)
    (hat : WalConn.At { c with pc := q } σ' q) : WalConn.Local { c with pc := q } σ' :=
  .outside hr (not_writing hq) (h.noOwn (not_writing hpc)) hat

theorem keeps_ckpt [Inhabited α] (hσ : σ.Ok) (hc : c.Local σ)
    (h : CkptAct free σ c e σ' c') : c.Keeps σ σ' c' := by
  have hat := hc.here
  cases h with
  | noop h =>
    rw [h] at hat
    have hst : c.Starting false := hat
    exact ⟨.none, .outside hst.readLock (not_writing rfl) (hc.noOwn (not_writing (by rw [h]; rfl)))
      ⟨hst.readLock, hst.writeLock.le.trans (by decide), fun h => absurd rfl h,
        fun h => by rcases h with h | h | h <;> cases h⟩⟩
  | @checkpoint m h hm hf =>
    rw [h] at hat
    have hst : c.Starting false := hat
    have hown := hc.noOwn (not_writing (by rw [h]; rfl))
    by_cases hp : m = .passive
    · simp only [hp, if_true]
      exact ⟨.none, .outside hst.readLock (not_writing rfl) hown
        ⟨hst.readLock, hst.writeLock.le.trans (by decide), fun _ => rfl,
          fun h => by rcases h with h | h | h <;> cases h⟩⟩
    · simp only [hp, if_false]
      exact ⟨.none, .outside hst.readLock (not_writing rfl) hown
        ⟨hst.readLock, hst.writeLock, rfl⟩⟩
  | lockCkptWrite h hf =>
    rw [h] at hat
    obtain ⟨hr, hw, hck⟩ := hat
    exact ⟨.none, .outside hr (not_writing rfl) (hc.noOwn (not_writing (by rw [h]; rfl)))
      ⟨hr, le_rfl, fun _ => hck, fun _ => rfl⟩⟩
  | lockCkptWriteBusy h =>
    rw [h] at hat
    obtain ⟨hr, hw, hck⟩ := hat
    exact ⟨.none, .outside hr (not_writing rfl) (hc.noOwn (not_writing (by rw [h]; rfl)))
      ⟨hr, hw.le.trans (by decide), fun _ => hck, fun h => by rcases h with h | h | h <;> cases h⟩⟩
  | ckptFail h =>
    exact ⟨.none, hc.goto h (fun _ _ => rfl) rfl fun hat => ⟨hat.readLock, hat.writeLock⟩⟩
  | ckptStart h hm =>
    refine ⟨.none, hc.goto h (fun _ _ => ?_) rfl fun hat => ?_⟩
    · split_ifs <;> rfl
    · have hat : c.HasHdr σ := hat
      split_ifs with hlt
      · exact ⟨{ hat with locked := hat.ckptLock hm, le := le_rfl }, le_rfl⟩
      · exact ⟨hat, hat.ckptLock hm⟩
  | @ckptMark i s h hi =>
    refine ⟨.none, hc.goto h (fun _ _ => ?_) rfl fun ⟨hcp, h1⟩ => ?_⟩
    · unfold Pc.safeMark
      split
      · split_ifs <;> rfl
      · rfl
    · unfold Pc.safeMark
      split
      · split_ifs with hy
        · exact ⟨hcp, h1, hy⟩
        · exact ⟨hcp, by omega⟩
      · exact ⟨hcp, by omega⟩
  | @ckptMarked i s h hi => exact ⟨.none, hc.goto h (fun _ _ => rfl) rfl fun hat => hat.1⟩
  | @ckptTry i s y h hf =>
    exact ⟨.none, hc.goto h (fun _ _ => rfl) rfl fun ⟨hcp, h1, _⟩ => ⟨hcp, h1⟩⟩
  | @ckptTryBusy i s y h =>
    refine ⟨.none, hc.goto h (fun _ _ => rfl) rfl fun ⟨hcp, h1, hy⟩ => ?_⟩
    exact ⟨{ hcp with le := hy.le.trans hcp.le }, by omega⟩
  | @ckptTryFails i s y h =>
    exact ⟨.none, hc.goto h (fun _ _ => rfl) rfl fun hat => ⟨hat.1.readLock, hat.1.writeLock⟩⟩
  | @ckptSet i s h =>
    rw [h] at hat
    have hgo : WalConn.Local { c with pc := .ckptUnlock i s } σ :=
      hc.goto h (fun _ _ => rfl) rfl fun hat => hat
    refine ⟨.mark (exRead_at h rfl), hgo.setMark hσ fun j hj => ?_⟩
    rcases hj with hj | hj
    · exact absurd (hat.1.readLock.symm.trans hj) (by simp)
    · exact hj.elim
  | @ckptUnlock i s h =>
    exact ⟨.none, hc.goto h (fun _ _ => rfl) rfl fun ⟨hcp, h1⟩ => ⟨hcp, by omega⟩⟩
  | @ckptInit s h =>
    refine ⟨.none, hc.goto h (fun _ _ => ?_) rfl fun hat => ?_⟩
    · split_ifs <;> rfl
    · have hat : c.Copies σ s := hat
      split_ifs with hlt
      · exact ⟨hat, hlt⟩
      · exact ⟨hat.toHasHdr, hat.locked⟩
  | @ckptIter s h =>
    refine ⟨.none, hc.goto h (fun _ _ => rfl) rfl fun ⟨hcp, hlt⟩ => ?_⟩
    obtain ⟨hz, -⟩ := @iZero_walFramePage (σ.nBackfill + 1) (Nat.succ_pos _)
    have hle := hcp.le
    refine ⟨hcp, hlt, Nat.succ_pos _, by omega,
      fun _ => ⟨rfl, fun p g hg => ?_, fun p g hg hle _ => ?_⟩⟩
    · exact absurd hg List.not_mem_nil
    · omega
  | @ckptIterFails s h =>
    exact ⟨.none, hc.goto h (fun _ _ => rfl) rfl fun hat => ⟨hat.1.readLock, hat.1.writeLock⟩⟩
  | @ckptRead s n f it h hf =>
    refine ⟨.none, hc.goto h (fun _ _ => rfl) rfl fun ⟨hcp, hlt, hpos, hle, hit⟩ => ?_⟩
    refine ⟨hcp, hlt, Nat.succ_pos _, by omega, fun he => ?_⟩
    obtain ⟨hn, hit⟩ := hit he
    have hpg := hσ.indexes.walFramePgno hpos (hf.trans (hcp.mxFrame_le hσ he))
    refine ⟨hn, fun p g hg => ?_, fun p g hg hle hp => ?_⟩
    · rcases List.mem_append.1 hg with hg | hg
      · obtain ⟨h0, h1, h2⟩ := hit.sound p g hg
        exact ⟨h0, by omega, h2⟩
      · obtain ⟨rfl, rfl⟩ := Prod.mk.inj (List.mem_singleton.1 hg)
        exact ⟨hpos, le_rfl, hpg⟩
    · rcases Nat.lt_or_ge g f with hgf | hgf
      · exact List.mem_append_left _ (hit.complete p g hg (by omega) hp)
      · obtain rfl : g = f := by omega
        rw [hpg] at hp
        obtain rfl := Option.some_inj.1 hp
        exact List.mem_append_right _ (List.mem_singleton_self _)
  | @ckptReadAll s n f it h hf =>
    refine ⟨.none, hc.goto h (fun _ _ => rfl) rfl fun ⟨hcp, hlt, hpos, hle, hit⟩ => ?_⟩
    refine ⟨hcp, by omega, fun he => ?_⟩
    obtain ⟨hn, hit⟩ := hit he
    rw [show f - 1 = c.hdr.mxFrame by omega] at hit
    exact ⟨hn ▸ hlt, hit⟩
  | ckptTail h =>
    refine ⟨.none, hc.goto h (fun _ _ => ?_) rfl fun ⟨hh, hck⟩ => ?_⟩
    · split_ifs <;> rfl
    · split_ifs with hm
      · exact ⟨hh, hck, hh.mode (.inr hm.1), hm.2⟩
      · exact ⟨hh.readLock, hh.writeLock⟩
  | ckptLockAll h hf =>
    refine ⟨.none, hc.goto h (fun _ _ => ?_) rfl fun ⟨hh, hck, hw, hle⟩ => ?_⟩
    · split_ifs <;> rfl
    · split_ifs
      · exact ⟨⟨hw, hh.hdr hw, hh, hck⟩, hle⟩
      · exact ⟨hw, hh.hdr hw, hh, hck⟩
  | ckptLockAllBusy h =>
    exact ⟨.none, hc.goto h (fun _ _ => rfl) rfl fun hat => ⟨hat.1.readLock, hat.1.writeLock⟩⟩
  | ckptEnd h =>
    rw [h] at hat
    exact ⟨.none, .outside hat.1 (not_writing rfl) (hc.noOwn (not_writing (by rw [h]; rfl)))
      ⟨hat.1, rfl⟩⟩
  | ckptDone h =>
    rw [h] at hat
    exact ⟨.none, .outside hat.1 (not_writing rfl) (hc.noOwn (not_writing (by rw [h]; rfl)))
      ⟨hat.1, hat.2, rfl, fun h => by cases h⟩⟩

theorem Backfills.setDb {s : ℕ} {db : ℕ → α} (h : c.Backfills σ s) :
    c.Backfills (σ.setDb db) s :=
  { h with seen := @seen_congr _ σ (σ.setDb db) rfl rfl rfl _ h.seen }

theorem keeps_backfill [Inhabited α] (hσ : σ.Ok) (hc : c.Local σ)
    (h : BackfillAct free σ c e σ' c') : c.Keeps σ σ' c' := by
  have hat := hc.here
  cases h with
  | @ckptLockZero s it h hf => exact ⟨.none, hc.goto h (fun _ _ => rfl) rfl fun hat => hat⟩
  | @ckptLockZeroBusy s it h =>
    exact ⟨.none, hc.goto h (fun _ _ => rfl) rfl fun hat => ⟨hat.1.toHasHdr, hat.1.locked⟩⟩
  | @ckptLoad s it h =>
    refine ⟨.none, hc.goto h (fun _ _ => rfl) rfl fun ⟨hcp, h0, hit⟩ => ⟨hcp, h0, fun he => ?_⟩⟩
    exact ⟨(hit he).1, rfl, (hit he).2⟩
  | @ckptSalt s n it h =>
    refine ⟨.none, hc.goto h (fun _ _ => ?_) rfl fun ⟨hcp, h0, hit⟩ => ?_⟩
    · split_ifs <;> rfl
    · split_ifs with he
      · obtain ⟨hlt, hn, hit⟩ := hit he.symm
        refine ⟨{ hcp with salt := he.symm, lt := hlt }, hn, hit, fun p hp _ g hg hlt _ => ?_⟩
        obtain ⟨-, -, -, hg⟩ := hg.mem (by omega)
        exact absurd (Nat.lt_one_iff.1 hp) (hσ.indexes.1 p (List.mem_of_getElem? hg))
      · exact ⟨hcp.toHasHdr, hcp.locked⟩
  | @ckptCopy s n iPrior p f it h hn =>
    have hnext := walIteratorNext_isNext it iPrior
    rw [hn] at hnext
    obtain ⟨hmem, hlt, hmin, hlast⟩ := hnext
    refine ⟨.none, hc.goto h (fun _ _ => ?_) rfl fun ⟨hb, he, hit, hcopy⟩ => ?_⟩
    · split_ifs <;> rfl
    · have hcopy' := hcopy.next hit hb.le hmin
      split_ifs with hskip
      · refine ⟨hb, he, hit, fun q hq hpage g hg hgt hle => ?_⟩
        rcases Nat.lt_or_eq_of_le (Nat.le_of_lt_succ hq) with hq | rfl
        · exact hcopy' q hq hpage g hg hgt hle
        · -- the iterator has its last frame, and that one is skipped
          have hin := hit.complete q g hgt (hle.trans hb.le) (hg.mem (by omega)).2.2.2
          have := hlast (q, g) hin rfl
          obtain ⟨f0, fle, fp⟩ := hit.sound q f hmem
          have := hg.le (mem_framesOf f0 (Nat.zero_le _) fle fp)
          simp only [] at *
          omega
      · exact ⟨hb, he, hit, hcopy', f, hit.latest hmem hlast (by omega), by omega, by omega, rfl⟩
  | @ckptWrite s n p it a h =>
    rw [h] at hat
    obtain ⟨hb, he, hit, hcopy, f, hf, hlt, hle, rfl⟩ := hat
    have hx : c.exRead 0 := exRead_at h rfl
    obtain ⟨f0, -, -, fp⟩ := hf.mem (by omega)
    refine ⟨.page hb hx (fun i m hsafe => ?_) (mem_framesOf f0 (by omega) hle fp),
      hc.ckpt hb.readLock (by rw [h]; rfl) rfl ⟨hb.setDb.setPc, he, ⟨hit.sound, hit.complete⟩, ?_⟩⟩
    · rw [h] at hsafe
      exact hsafe
    · exact hcopy.write hf (by omega)
  | @ckptCopied s n iPrior it h hn =>
    have hnext := walIteratorNext_isNext it iPrior
    rw [hn] at hnext
    refine ⟨.none, hc.goto h (fun _ _ => rfl) rfl fun ⟨hb, he, hit, hcopy⟩ => ⟨hb, fun b => ?_⟩⟩
    exact hcopy.next hit hb.le fun x hx hlt => absurd (hnext x hx) (by omega)
  | @ckptCopyFails s n iPrior it h =>
    exact ⟨.none, hc.goto h (fun _ _ => rfl) rfl fun hat => ⟨hat.1.toHasHdr, hat.1.locked⟩⟩
  | @ckptWriteFails s n p it a h =>
    exact ⟨.none, hc.goto h (fun _ _ => rfl) rfl fun hat => ⟨hat.1.toHasHdr, hat.1.locked⟩⟩
  | @ckptSize s h =>
    refine ⟨.none, hc.goto h (fun _ _ => ?_) rfl fun hat => ?_⟩
    · split_ifs <;> rfl
    · split_ifs <;> exact hat
  | @ckptTrunc s h =>
    rw [h] at hat
    obtain ⟨hb, hall⟩ := hat
    have hx : c.exRead 0 := exRead_at h rfl
    refine ⟨.truncate hb hx h, hc.ckpt hb.readLock (by rw [h]; rfl) rfl
      ⟨hb.setDb.setPc, fun b p hp hpage g hg hlt hle => ?_⟩⟩
    exact (if_pos hpage).trans (hall b p hp hpage g hg hlt hle)
  | @ckptTruncFails s h =>
    exact ⟨.none, hc.goto h (fun _ _ => rfl) rfl fun hat => ⟨hat.1.toHasHdr, hat.1.locked⟩⟩
  | @ckptSyncFails s h =>
    exact ⟨.none, hc.goto h (fun _ _ => rfl) rfl fun hat => ⟨hat.1.toHasHdr, hat.1.locked⟩⟩
  | @ckptPublish s h =>
    rw [h] at hat
    obtain ⟨hb, hall⟩ := hat
    refine ⟨.backfill hb hall, hc.ckpt hb.readLock (by rw [h]; rfl) rfl ⟨?_, hb.locked⟩⟩
    exact ⟨⟨hb.readLock, hb.writeLock, hb.ckptLock, hb.mode⟩,
      @seen_congr _ σ (σ.setBackfill s) rfl rfl rfl _ hb.seen, hb.hdr⟩
  | @ckptUnlockZero ok h =>
    refine ⟨.none, hc.goto h (fun _ _ => ?_) rfl fun hat => ?_⟩
    · split_ifs <;> rfl
    · split_ifs
      · exact hat
      · exact ⟨hat.1.readLock, hat.1.writeLock⟩

end WalConn

end Btreelite
