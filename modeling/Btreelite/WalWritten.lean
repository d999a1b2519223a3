import Btreelite.WalChain

/-!
# What the log file holds

The log is a list of pages, one for each frame. A handle that writes keeps all frames good until it
overwrites one; from then on the frames before `iReCksum` are.
-/

namespace Btreelite

open ByteFile

theorem put4byte_get4byte {l : List UInt8} (h : 4 ≤ l.length) : put4byte (get4byte l) = l.take 4 := by
  match l, h with
  | a :: b :: c :: d :: rest, _ =>
    have ha := a.toNat_lt
    have hb := b.toNat_lt
    have hc := c.toNat_lt
    have hd := d.toNat_lt
    have hg : get4byte (a :: b :: c :: d :: rest)
        = a.toNat * 2 ^ 24 + b.toNat * 2 ^ 16 + c.toNat * 2 ^ 8 + d.toNat := by
      simp only [get4byte, u8_cons_zero, u8_cons_succ, Nat.lor_assoc]
      rw [shiftLeft_or_eq (i := 8) (by omega), shiftLeft_or_eq (i := 16) (by omega),
        shiftLeft_or_eq (i := 24) (by omega)]
      omega
    rw [hg]
    simp only [put4byte, Nat.shiftRight_eq_div_pow, List.take_succ_cons, List.take_zero,
      List.cons.injEq, and_true]
    refine ⟨?_, ?_, ?_, ?_⟩ <;> apply UInt8.toNat_inj.1 <;> rw [UInt8.toNat_ofNat'] <;> omega

/-! ## The header -/

/-- The file starts with the header that the handle continues. -/
structure HeaderOf (f : List UInt8) (pWal : Wal) : Prop where
  size : WAL_HDRSIZE ≤ f.length
  magic : get4byte (f.take WAL_HDRSIZE) &&& 0xFFFFFFFE = WAL_MAGIC
  version : get4byte ((f.take WAL_HDRSIZE).drop 4) = WAL_MAX_VERSION
  pow : walPageSize f &&& (walPageSize f - 1) = 0
  small : walPageSize f ≤ SQLITE_MAX_PAGE_SIZE
  large : 512 ≤ walPageSize f
  cksum : cumCksum f 0
    = (get4byte ((f.take WAL_HDRSIZE).drop 24), get4byte ((f.take WAL_HDRSIZE).drop 28))
  salt : walSalt f = pWal.hdr.aSalt
  bigEnd : walBigEnd f = pWal.hdr.bigEndCksum
  pageSize : walPageSize f = pWal.szPage

/-- The pages of the first `n` frames. -/
def logPages (f : List UInt8) (n : ℕ) : List PgHdr :=
  (List.range n).map fun i => ⟨framePgno f (i + 1), frameData f (i + 1)⟩

/-- The first `n` frames are good. -/
def GoodTo (f : List UInt8) (n : ℕ) : Prop := ∀ i, 0 < i → i ≤ n → WalFrameOk f i

section File

variable {f f' : List UInt8} {pWal : Wal} {m n i : ℕ}

theorem HeaderOf.same (h : HeaderOf f pWal) (hs : SameLog n f f') : HeaderOf f' pWal where
  size := h.size.trans hs.size
  magic := by
    rw [hs.hdr]
    exact h.magic
  version := by
    rw [hs.hdr]
    exact h.version
  pow := by
    rw [hs.pageSize]
    exact h.pow
  small := by
    rw [hs.pageSize]
    exact h.small
  large := by
    rw [hs.pageSize]
    exact h.large
  cksum := by
    rw [(hs.mono (Nat.zero_le n)).cumCksum, hs.hdr]
    exact h.cksum
  salt := hs.salt.trans h.salt
  bigEnd := hs.bigEnd.trans h.bigEnd
  pageSize := hs.pageSize.trans h.pageSize

theorem HeaderOf.hdrOk (h : HeaderOf f pWal) (hsize : WAL_HDRSIZE < f.length) : WalHdrOk f :=
  ⟨hsize, h.magic, h.pow, h.small, h.large, h.cksum⟩

theorem HeaderOf.salt_length (h : HeaderOf f pWal) : pWal.hdr.aSalt.length = 8 := by
  rw [← h.salt]
  exact walSalt_length h.size

@[simp] theorem logPages_length : (logPages f n).length = n := by simp [logPages]

theorem logPages_succ :
    logPages f (n + 1) = logPages f n ++ [⟨framePgno f (n + 1), frameData f (n + 1)⟩] := by
  simp [logPages, List.range_succ]

theorem logPages_getElem? (h : i < n) :
    (logPages f n)[i]? = some ⟨framePgno f (i + 1), frameData f (i + 1)⟩ := by
  rw [logPages, List.getElem?_map, List.getElem?_range h, Option.map_some]

theorem logPages_take (h : m ≤ n) : (logPages f n).take m = logPages f m := by
  simp [logPages, ← List.map_take, List.take_range, Nat.min_eq_left h]

theorem logPages_pgnos : (logPages f n).map PgHdr.pgno = walPgnos f n := by
  simp [logPages, walPgnos]

theorem SameLog.logPages (h : SameLog n f f') : logPages f' n = logPages f n := by
  refine List.ext_getElem? fun i => ?_
  rcases Nat.lt_or_ge i n with hi | hi
  · rw [logPages_getElem? hi, logPages_getElem? hi, h.framePgno (Nat.succ_pos i) hi,
      h.data (i + 1) (Nat.succ_pos i) hi]
  · rw [List.getElem?_eq_none (by simpa using hi), List.getElem?_eq_none (by simpa using hi)]

theorem GoodTo.mono (h : GoodTo f n) (hm : m ≤ n) : GoodTo f m :=
  fun i hi hle => h i hi (hle.trans hm)

theorem GoodTo.same (h : GoodTo f n) (hs : SameFrames n f f') : GoodTo f' n :=
  fun i hi hle => hs.frameOk hle hi (h i hi hle)

theorem GoodTo.succ (h : GoodTo f n) (hn : WalFrameOk f (n + 1)) : GoodTo f (n + 1) := by
  intro i hi hle
  rcases Nat.lt_or_eq_of_le hle with hlt | rfl
  · exact h i hi (by omega)
  · exact hn

end File

/-! ## The committed part -/

/-- The frames that the shared header counts are good and end in a commit, and the shared header
says of them what they are. -/
structure CommittedAt (f : List UInt8) (live : WalIndexHdr) : Prop where
  header : HeaderOf f ⟨live, walPageSize f, 0⟩
  good : GoodTo f live.mxFrame
  cksum : live.aFrameCksum = cumCksum f live.mxFrame
  nPage : frameNTruncate f live.mxFrame = live.nPage
  commit : live.nPage ≠ 0
  szPage : live.szPage = hdrSzPage (walPageSize f)

/-- An empty log says nothing about the file. -/
def Committed (f : List UInt8) (live : WalIndexHdr) : Prop :=
  live.mxFrame ≠ 0 → CommittedAt f live

theorem Committed.same {f f' : List UInt8} {live : WalIndexHdr} (h : Committed f live)
    (hs : SameFrames live.mxFrame f f') : Committed f' live := by
  intro hmx
  have hc := h hmx
  have hps := hs.sameLog.pageSize
  exact
    { header := by
        rw [hps]
        exact hc.header.same hs.sameLog
      good := hc.good.same hs
      cksum := by
        rw [hs.sameLog.cumCksum]
        exact hc.cksum
      nPage := by
        rw [hs.sameLog.frameNTruncate (Nat.pos_of_ne_zero hmx) le_rfl]
        exact hc.nPage
      commit := hc.commit
      szPage := by
        rw [hps]
        exact hc.szPage }

/-! ## What a handle has written -/

/-- The frames of the file are those of `log`. -/
structure LogHolds (f : List UInt8) (pWal : Wal) (log : List PgHdr) : Prop where
  header : HeaderOf f pWal
  cover : walFrameOffset (log.length + 1) (walPageSize f) ≤ f.length
  pages : logPages f log.length = log
  pgno : ∀ p ∈ log, p.pgno ≠ 0

/-- The frames before `iReCksum`, or all of them, are good, and then the handle has their
checksum. -/
structure Written (f : List UInt8) (pWal : WalHandle) (log : List PgHdr) : Prop
    extends LogHolds f pWal.toWal log where
  chain : pWal.iReCksum = 0 →
    GoodTo f log.length ∧ pWal.hdr.aFrameCksum = cumCksum f log.length
  before : pWal.iReCksum ≠ 0 → pWal.iReCksum ≤ log.length ∧ GoodTo f (pWal.iReCksum - 1)

/-- What `walFrames` may be given. -/
structure PgHdr.Fits (szPage : ℕ) (p : PgHdr) : Prop where
  pos : p.pgno ≠ 0
  lt : p.pgno < 2 ^ 32
  size : p.pData.length = szPage

section Write

variable {f : List UInt8} {pWal : WalHandle} {log : List PgHdr} {p : PgHdr} {nTruncate : ℕ}

theorem LogHolds.same {f' : List UInt8} {pWal : Wal} (h : LogHolds f pWal log)
    (hs : SameLog log.length f f') : LogHolds f' pWal log where
  header := h.header.same hs
  cover := by
    rw [hs.pageSize]
    exact h.cover.trans hs.size
  pages := by
    rw [hs.logPages]
    exact h.pages
  pgno := h.pgno

theorem walEncodeFrame_length (hsalt : pWal.hdr.aSalt.length = 8) (iPage : ℕ)
    (aData : List UInt8) :
    (walEncodeFrame pWal iPage nTruncate aData).2.length = WAL_FRAME_HDRSIZE := by
  unfold walEncodeFrame
  simp only []
  split_ifs
  · simp only [List.length_append, put4byte_length, hsalt, WAL_FRAME_HDRSIZE]
  · simp only [List.length_append, put4byte_length, List.length_replicate, WAL_FRAME_HDRSIZE]

/-- A frame header starts with the page number and the commit size. -/
theorem walEncodeFrame_snd (iPage : ℕ) (aData : List UInt8) :
    ∃ rest, (walEncodeFrame pWal iPage nTruncate aData).2
      = put4byte iPage ++ (put4byte nTruncate ++ rest) := by
  unfold walEncodeFrame
  simp only []
  split_ifs
  · exact ⟨_, List.append_assoc ..⟩
  · exact ⟨_, List.append_assoc ..⟩

@[simp] theorem walEncodeFrame_iReCksum (iPage : ℕ) (aData : List UInt8) :
    (walEncodeFrame pWal iPage nTruncate aData).1.iReCksum = pWal.iReCksum := by
  unfold walEncodeFrame
  simp only []
  split_ifs <;> rfl

/-- The encoding only changes the running checksum. -/
theorem walEncodeFrame_fst (iPage : ℕ) (aData : List UInt8) :
    ∃ c, (walEncodeFrame pWal iPage nTruncate aData).1
      = { pWal with hdr := { pWal.hdr with aFrameCksum := c } } := by
  unfold walEncodeFrame
  simp only []
  split_ifs
  · exact ⟨_, rfl⟩
  · exact ⟨_, rfl⟩

theorem HeaderOf.cksum_irrel {c : ℕ × ℕ} (h : HeaderOf f pWal.toWal) :
    HeaderOf f ({ pWal with hdr := { pWal.hdr with aFrameCksum := c } } : WalHandle).toWal :=
  ⟨h.size, h.magic, h.version, h.pow, h.small, h.large, h.cksum, h.salt, h.bigEnd, h.pageSize⟩

theorem walFrame_of_write {i : ℕ} {e : List UInt8} (hi : 0 < i)
    (hlen : walFrameOffset i (walPageSize f) ≤ f.length)
    (he : e.length ≤ walPageSize f + WAL_FRAME_HDRSIZE) :
    walFrame (pwrite 0 f (walFrameOffset i (walPageSize f)) e) i
      = e ++ (walFrame f i).drop e.length := by
  have h := @walFrame_write_self f i e 0 hi (by omega) hlen
  rwa [Nat.add_zero, Nat.zero_add, List.take_zero, List.nil_append] at h

/-- A frame that was written with a running checksum is good. -/
theorem frameOk_of_walEncodeFrame {f' : List UInt8} {n iPage : ℕ} {aData : List UInt8}
    (hh : HeaderOf f' pWal.toWal) (hre : pWal.iReCksum = 0)
    (hck : pWal.hdr.aFrameCksum = cumCksum f' n)
    (hsize : walFrameOffset (n + 2) (walPageSize f') ≤ f'.length)
    (hpgno : iPage ≠ 0) (hlt : iPage < 2 ^ 32)
    (hfr : walFrame f' (n + 1) = (walEncodeFrame pWal iPage nTruncate aData).2 ++ aData) :
    WalFrameOk f' (n + 1) ∧
      (walEncodeFrame pWal iPage nTruncate aData).1.hdr.aFrameCksum = cumCksum f' (n + 1) := by
  have hs := hh.salt_length
  obtain ⟨c, hc⟩ : ∃ c, c = cumCksum f' (n + 1) := ⟨_, rfl⟩
  have hlen := @walEncodeFrame_length pWal nTruncate hs iPage aData
  have hd : (walFrame f' (n + 1)).drop 24 = aData := by
    rw [hfr]
    exact List.drop_left' hlen
  obtain ⟨rest, hrest⟩ := @walEncodeFrame_snd pWal nTruncate iPage aData
  have ht : (walFrame f' (n + 1)).take 8 = put4byte iPage ++ put4byte nTruncate := by
    rw [hfr, hrest, ← List.append_assoc, List.append_assoc]
    exact List.take_left' rfl
  have henc : walEncodeFrame pWal iPage nTruncate aData
      = ({ pWal with hdr := { pWal.hdr with aFrameCksum := c } },
        (put4byte iPage ++ put4byte nTruncate)
          ++ (pWal.hdr.aSalt ++ (put4byte c.1 ++ put4byte c.2))) := by
    have hcum : c = walChecksumBytes pWal.hdr.bigEndCksum (aData.take pWal.szPage)
        (walChecksumBytes pWal.hdr.bigEndCksum (put4byte iPage ++ put4byte nTruncate)
          pWal.hdr.aFrameCksum) := by
      rw [hc, cumCksum, hd, ht, hck, hh.bigEnd, hh.pageSize]
    rw [hcum, walEncodeFrame, if_pos hre]
  refine ⟨⟨?_, ?_, ?_, ?_⟩, ?_⟩
  · exact hsize
  · rw [framePgno, hfr, hrest, List.append_assoc, get4byte_put4byte hlt]
    exact hpgno
  · rw [hfr, henc, hh.salt]
    have h8 : (put4byte iPage ++ put4byte nTruncate).length = 8 := rfl
    rw [List.append_assoc, List.drop_left' h8, List.append_assoc]
    exact List.take_left' hs
  · have h16 : (walFrame f' (n + 1)).drop 16 = put4byte c.1 ++ (put4byte c.2 ++ aData) := by
      have h16 : (put4byte iPage ++ put4byte nTruncate ++ pWal.hdr.aSalt).length = 16 := by
        rw [List.length_append, hs]
        rfl
      rw [hfr, henc, ← List.append_assoc _ pWal.hdr.aSalt, List.append_assoc, List.append_assoc]
      exact List.drop_left' h16
    have h20 : (walFrame f' (n + 1)).drop 20 = put4byte c.2 ++ aData := by
      rw [show 20 = 16 + 4 from rfl, ← List.drop_drop, h16]
      exact List.drop_left' (put4byte_length _)
    have hlt' := @cumCksum_lt f' (n + 1)
    rw [← hc] at hlt'
    rw [h16, h20, get4byte_put4byte hlt'.1, get4byte_put4byte hlt'.2, ← hc]
  · rw [henc, hc]

/-- A new frame. -/
theorem Written.append (h : Written f pWal log) (hp : p.Fits (walPageSize f))
    (hn : nTruncate < 2 ^ 32) {f' : List UInt8} {e : WalHandle × List UInt8}
    (he : e = walEncodeFrame pWal p.pgno nTruncate p.pData)
    (hf' : f' = pwrite 0 f (walFrameOffset (log.length + 1) (walPageSize f)) (e.2 ++ p.pData)) :
    Written f' e.1 (log ++ [p]) ∧ SameFrames log.length f f' ∧
      frameNTruncate f' (log.length + 1) = nTruncate := by
  have hsame : SameFrames log.length f f' := by
    rw [hf']
    exact SameFrames.write le_rfl h.cover
  have hel : e.2.length = WAL_FRAME_HDRSIZE := by
    rw [he]
    exact walEncodeFrame_length h.header.salt_length _ _
  have hlen : (e.2 ++ p.pData).length = walPageSize f + WAL_FRAME_HDRSIZE := by
    rw [List.length_append, hel, hp.size, Nat.add_comm]
  have hfr : walFrame f' (log.length + 1) = e.2 ++ p.pData := by
    rw [hf', walFrame_of_write (Nat.succ_pos _) h.cover hlen.le, List.drop_eq_nil_of_le,
      List.append_nil]
    rw [hlen, walFrame, readFrame_eq, pread_length]
    exact Nat.min_le_left ..
  have hps := hsame.sameLog.pageSize
  have hcover : walFrameOffset (log.length + 2) (walPageSize f') ≤ f'.length := by
    rw [hps, walFrameOffset_succ (Nat.succ_pos _), hf', pwrite_length h.cover, hlen]
    exact Nat.le_max_right ..
  obtain ⟨rest, hrest⟩ := @walEncodeFrame_snd pWal nTruncate p.pgno p.pData
  rw [← he] at hrest
  have hpgno : framePgno f' (log.length + 1) = p.pgno := by
    rw [framePgno, hfr, hrest, List.append_assoc, get4byte_put4byte hp.lt]
  have hdata : frameData f' (log.length + 1) = p.pData := by
    rw [frameData, hfr]
    exact List.drop_left' hel
  have hnt : frameNTruncate f' (log.length + 1) = nTruncate := by
    rw [frameNTruncate, hfr, hrest, List.append_assoc, List.drop_left' (put4byte_length _),
      List.append_assoc, get4byte_put4byte hn]
  have hheader : HeaderOf f' pWal.toWal := h.header.same hsame.sameLog
  have hl : (log ++ [p]).length = log.length + 1 := List.length_append
  have hre : e.1.iReCksum = pWal.iReCksum := by rw [he, walEncodeFrame_iReCksum]
  refine ⟨?_, hsame, hnt⟩
  refine { header := ?_, cover := ?_, pages := ?_, pgno := ?_, chain := fun h0 => ?_,
           before := fun h0 => ?_ }
  · obtain ⟨c, hc⟩ := @walEncodeFrame_fst pWal nTruncate p.pgno p.pData
    rw [he, hc]
    exact hheader.cksum_irrel
  · rwa [hl]
  · rw [hl, logPages_succ, hsame.sameLog.logPages, h.pages, hpgno, hdata]
  · intro q hq
    rcases List.mem_append.1 hq with hq | hq
    · exact h.pgno q hq
    · rw [List.mem_singleton.1 hq]
      exact hp.pos
  · rw [hre] at h0
    obtain ⟨hgood, hck⟩ := h.chain h0
    rw [← hsame.sameLog.cumCksum] at hck
    obtain ⟨hok, hck'⟩ := @frameOk_of_walEncodeFrame pWal nTruncate f' log.length p.pgno p.pData
      hheader h0 hck hcover hp.pos hp.lt (by rw [← he]; exact hfr)
    rw [hl]
    refine ⟨(hgood.same hsame).succ hok, ?_⟩
    rw [he]
    exact hck'
  · rw [hre] at h0 ⊢
    obtain ⟨hle, hgood⟩ := h.before h0
    exact ⟨by omega, hgood.same (hsame.mono (by omega))⟩

/-- A frame that is overwritten in place. -/
theorem Written.overwrite {j : ℕ} (h : Written f pWal log) (hj : j < log.length)
    (hpg : (log.map PgHdr.pgno)[j]? = some p.pgno) (hp : p.pData.length = walPageSize f)
    {f' : List UInt8} (hf' : f' = pwrite 0 f
      (walFrameOffset (j + 1) (walPageSize f) + WAL_FRAME_HDRSIZE) p.pData) :
    Written f' (pWal.overwrite (j + 1)) (log.set j p) ∧ SameFrames j f f' := by
  have hend : walFrameOffset (j + 1) (walPageSize f) + (walPageSize f + WAL_FRAME_HDRSIZE)
      ≤ f.length := by
    rw [← walFrameOffset_succ (Nat.succ_pos j)]
    exact (walFrameOffset_mono (by omega)).trans h.cover
  have hoff : walFrameOffset (j + 1) (walPageSize f) + WAL_FRAME_HDRSIZE ≤ f.length := by omega
  have hsame : SameFrames j f f' := by
    rw [hf']
    exact SameFrames.write (Nat.le_add_right ..) hoff
  have hps := hsame.sameLog.pageSize
  have hother : ∀ i, 0 < i → i ≠ j + 1 → walFrame f' i = walFrame f i := by
    intro i hi hne
    rw [hf']
    exact walFrame_write_of_ne hoff (Nat.le_add_right ..) (by omega) (Nat.succ_pos j) hi hne
  have hfl : (walFrame f (j + 1)).length = walPageSize f + WAL_FRAME_HDRSIZE := by
    refine walFrame_length ?_ (Nat.succ_pos j)
    rwa [walFrameOffset_succ (Nat.succ_pos j)]
  have hself : walFrame f' (j + 1) = (walFrame f (j + 1)).take WAL_FRAME_HDRSIZE ++ p.pData := by
    have := @walFrame_write_self f (j + 1) p.pData WAL_FRAME_HDRSIZE (Nat.succ_pos j) (by omega) hoff
    rw [hf', this, List.drop_eq_nil_of_le (by omega), List.append_nil]
  have hpgno : framePgno f' (j + 1) = p.pgno := by
    have hold : framePgno f (j + 1) = p.pgno := by
      rw [← h.pages, logPages_pgnos, walPgnos, List.getElem?_map, List.getElem?_range hj,
        Option.map_some, Option.some_inj] at hpg
      exact hpg
    have ht : (walFrame f' (j + 1)).take 4 = (walFrame f (j + 1)).take 4 := by
      rw [hself, List.take_append_of_le_length (by rw [List.length_take]; unfold WAL_FRAME_HDRSIZE at *; omega),
        List.take_take]
      rfl
    have hu : ∀ l : List UInt8, get4byte l = get4byte (l.take 4) := by
      intro l
      simp [get4byte, u8, List.getD_eq_getElem?_getD]
    rw [← hold, framePgno, framePgno, hu, ht, ← hu]
  have hdata : frameData f' (j + 1) = p.pData := by
    rw [frameData, hself]
    refine List.drop_left' ?_
    rw [List.length_take]
    omega
  refine ⟨{ header := ?_, cover := ?_, pages := ?_, pgno := ?_, chain := fun h0 => ?_,
            before := fun _ => ?_ }, hsame⟩
  · have hh : HeaderOf f' pWal.toWal := h.header.same hsame.sameLog
    unfold WalHandle.overwrite
    split_ifs
    · exact hh
    · exact hh
  · rw [List.length_set, hps]
    exact h.cover.trans hsame.size
  · rw [List.length_set]
    refine List.ext_getElem? fun i => ?_
    rcases Nat.lt_or_ge i log.length with hi | hi
    · rw [logPages_getElem? hi]
      rcases eq_or_ne j i with rfl | hne
      · rw [List.getElem?_set_self hj, hpgno, hdata]
      · have hl := @logPages_getElem? f log.length i hi
        rw [h.pages] at hl
        have hfr := hother (i + 1) (Nat.succ_pos i) (by omega)
        rw [List.getElem?_set_ne hne, hl, framePgno, framePgno, frameData, frameData, hfr]
    · rw [List.getElem?_eq_none (by simpa using hi), List.getElem?_eq_none (by simpa using hi)]
  · intro q hq
    rcases List.mem_or_eq_of_mem_set hq with hq | rfl
    · exact h.pgno q hq
    · have hm := List.mem_of_getElem? hpg
      obtain ⟨q', hq', he⟩ := List.mem_map.1 hm
      rw [← he]
      exact h.pgno q' hq'
  · unfold WalHandle.overwrite at h0
    split_ifs at h0 with hc
    exact absurd (.inl h0) hc
  · have hgood : ∀ k ≤ j, (pWal.iReCksum = 0 ∨ k < pWal.iReCksum) → GoodTo f' k := by
      intro k hk hre
      refine GoodTo.same ?_ (hsame.mono hk)
      rcases Nat.eq_zero_or_pos pWal.iReCksum with h0 | h0
      · exact (h.chain h0).1.mono (by omega)
      · exact (h.before h0.ne').2.mono (by omega)
    rw [List.length_set]
    unfold WalHandle.overwrite
    split_ifs with hc
    · refine ⟨hj, ?_⟩
      simp only [Nat.add_sub_cancel]
      exact hgood j le_rfl (by omega)
    · have := h.before (by omega)
      exact ⟨this.1, hgood _ (by omega) (by omega)⟩

/-! ## Rewriting the checksums -/

/-- The first `k` frames are good and the handle has their checksum. -/
structure Rewriting (f : List UInt8) (pWal : WalHandle) (log : List PgHdr) (k : ℕ) : Prop
    extends LogHolds f pWal.toWal log where
  zero : pWal.iReCksum = 0
  good : GoodTo f k
  cksum : pWal.hdr.aFrameCksum = cumCksum f k

theorem Rewriting.written (h : Rewriting f pWal log log.length) : Written f pWal log :=
  { toLogHolds := h.toLogHolds
    chain := fun _ => ⟨h.good, h.cksum⟩
    before := fun h0 => absurd h.zero h0 }

/-- The next frame gets its checksum. -/
theorem Rewriting.next {k : ℕ} (h : Rewriting f pWal log k) (hk : k < log.length)
    {f' : List UInt8} {e : WalHandle × List UInt8}
    (he : e = walEncodeFrame pWal (framePgno f (k + 1)) (frameNTruncate f (k + 1))
      (frameData f (k + 1)))
    (hf' : f' = pwrite 0 f (walFrameOffset (k + 1) (walPageSize f)) e.2) :
    Rewriting f' e.1 log (k + 1) ∧ SameLog log.length f f' ∧ SameFrames k f f' := by
  have hend : walFrameOffset (k + 1) (walPageSize f) + (walPageSize f + WAL_FRAME_HDRSIZE)
      ≤ f.length := by
    rw [← walFrameOffset_succ (Nat.succ_pos k)]
    exact (walFrameOffset_mono (by omega)).trans h.cover
  have hoff : walFrameOffset (k + 1) (walPageSize f) ≤ f.length := by omega
  have hel : e.2.length = WAL_FRAME_HDRSIZE := by
    rw [he]
    exact walEncodeFrame_length h.header.salt_length _ _
  have hsame : SameFrames k f f' := by
    rw [hf']
    exact SameFrames.write le_rfl hoff
  have hps := hsame.sameLog.pageSize
  have hself : walFrame f' (k + 1) = e.2 ++ frameData f (k + 1) := by
    rw [hf', walFrame_of_write (Nat.succ_pos k) hoff (by omega), hel, frameData]
  have hfl : (walFrame f (k + 1)).length = walPageSize f + WAL_FRAME_HDRSIZE := by
    refine walFrame_length ?_ (Nat.succ_pos k)
    rwa [walFrameOffset_succ (Nat.succ_pos k)]
  have hlog : SameLog log.length f f' := by
    refine ⟨hsame.size, hsame.hdr, fun i hi hle => ?_, fun i hi hle => ?_⟩
    · rcases eq_or_ne i (k + 1) with rfl | hne
      · obtain ⟨rest, hrest⟩ := @walEncodeFrame_snd pWal (frameNTruncate f (k + 1))
          (framePgno f (k + 1)) (frameData f (k + 1))
        rw [← he] at hrest
        rw [hself, hrest, framePgno, frameNTruncate, put4byte_get4byte (by unfold WAL_FRAME_HDRSIZE at hfl; omega),
          put4byte_get4byte (by rw [List.length_drop]; unfold WAL_FRAME_HDRSIZE at hfl; omega), List.append_assoc, List.append_assoc,
          ← List.append_assoc, ← List.take_add]
        refine List.take_left' ?_
        rw [List.length_take]
        unfold WAL_FRAME_HDRSIZE at hfl
        omega
      · rw [hf', walFrame_write_of_ne hoff le_rfl (by omega) (Nat.succ_pos k) hi hne]
    · rcases eq_or_ne i (k + 1) with rfl | hne
      · rw [frameData, hself]
        exact List.drop_left' hel
      · rw [frameData, frameData, hf',
          walFrame_write_of_ne hoff le_rfl (by omega) (Nat.succ_pos k) hi hne]
  have hholds : LogHolds f' pWal.toWal log := h.toLogHolds.same hlog
  have hcover : walFrameOffset (k + 2) (walPageSize f') ≤ f'.length :=
    (walFrameOffset_mono (by omega)).trans hholds.cover
  have hck : pWal.hdr.aFrameCksum = cumCksum f' k := by
    rw [hsame.sameLog.cumCksum]
    exact h.cksum
  have hp := logPages_getElem? (f := f) hk
  rw [h.pages] at hp
  have hlt : framePgno f (k + 1) < 2 ^ 32 := by
    rw [framePgno]
    exact get4byte_lt _
  obtain ⟨hok, hck'⟩ := @frameOk_of_walEncodeFrame pWal (frameNTruncate f (k + 1)) f' k
    (framePgno f (k + 1)) (frameData f (k + 1)) hholds.header h.zero hck hcover
    (h.pgno _ (List.mem_of_getElem? hp)) hlt (by rw [← he]; exact hself)
  refine ⟨{ header := ?_, cover := hholds.cover, pages := hholds.pages, pgno := hholds.pgno,
            zero := ?_, good := (h.good.same hsame).succ hok, cksum := ?_ }, hlog, hsame⟩
  · obtain ⟨c, hc⟩ := @walEncodeFrame_fst pWal (frameNTruncate f (k + 1)) (framePgno f (k + 1))
      (frameData f (k + 1))
    rw [he, hc]
    exact hholds.header.cksum_irrel
  · rw [he, walEncodeFrame_iReCksum]
    exact h.zero
  · rw [he]
    exact hck'

end Write

end Btreelite
