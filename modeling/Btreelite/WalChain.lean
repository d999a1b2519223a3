import Btreelite.WalFile

/-!
# The frames of a log file

What a write leaves of the frames. The frames up to some number, with their running checksum, only
depend on what lies before the next one; rewriting frame headers changes no checksum as long as the
page numbers and commit sizes stay.
-/

namespace Btreelite

open ByteFile

theorem walChecksumBytes_lt (bigEnd : Bool) : ∀ (l : List UInt8) (s : ℕ × ℕ),
    s.1 < 2 ^ 32 ∧ s.2 < 2 ^ 32 →
      (walChecksumBytes bigEnd l s).1 < 2 ^ 32 ∧ (walChecksumBytes bigEnd l s).2 < 2 ^ 32
  | a :: b :: c :: d :: a' :: b' :: c' :: d' :: rest, (s1, s2), _ => by
    rw [walChecksumBytes]
    exact walChecksumBytes_lt bigEnd rest _ ⟨Nat.mod_lt _ (by decide), Nat.mod_lt _ (by decide)⟩
  | [], _, h => h
  | [_], _, h => h
  | [_, _], _, h => h
  | [_, _, _], _, h => h
  | [_, _, _, _], _, h => h
  | [_, _, _, _, _], _, h => h
  | [_, _, _, _, _, _], _, h => h
  | [_, _, _, _, _, _, _], _, h => h

section Frames

variable {f f' f'' : List UInt8} {i j m n sz : ℕ}

theorem readFrame_eq : readFrame f i sz = pread f (walFrameOffset i sz) (sz + WAL_FRAME_HDRSIZE) :=
  rfl

theorem walFrameOffset_succ (hi : 0 < i) :
    walFrameOffset (i + 1) sz = walFrameOffset i sz + (sz + WAL_FRAME_HDRSIZE) := by
  obtain ⟨k, rfl⟩ : ∃ k, i = k + 1 := ⟨i - 1, by omega⟩
  simp only [walFrameOffset, Nat.add_sub_cancel, Nat.succ_mul]
  omega

theorem walFrameOffset_mono (h : i ≤ j) : walFrameOffset i sz ≤ walFrameOffset j sz :=
  Nat.add_le_add_left (Nat.mul_le_mul_right _ (by omega)) _

/-- The end of a frame is not behind the start of a later one. -/
theorem walFrameOffset_lt (hi : 0 < i) (h : i < j) :
    walFrameOffset i sz + (sz + WAL_FRAME_HDRSIZE) ≤ walFrameOffset j sz := by
  rw [← walFrameOffset_succ hi]
  exact walFrameOffset_mono h

theorem walFrameOffset_next :
    walFrameOffset (n + 1) sz = WAL_HDRSIZE + n * (sz + WAL_FRAME_HDRSIZE) := rfl

/-- The content of the page in a frame. -/
def frameData (f : List UInt8) (i : ℕ) : List UInt8 := (walFrame f i).drop WAL_FRAME_HDRSIZE

theorem walFrame_length (h : walFrameOffset (i + 1) (walPageSize f) ≤ f.length) (hi : 0 < i) :
    (walFrame f i).length = walPageSize f + WAL_FRAME_HDRSIZE := by
  rw [walFrameOffset_succ hi] at h
  exact pread_length_of_le h

theorem cumCksum_lt : (cumCksum f n).1 < 2 ^ 32 ∧ (cumCksum f n).2 < 2 ^ 32 := by
  induction n with
  | zero => exact walChecksumBytes_lt _ _ _ ⟨by decide, by decide⟩
  | succ n ih => exact walChecksumBytes_lt _ _ _ (walChecksumBytes_lt _ _ _ ih)

/-! ## Files with the same first frames -/

/-- The files have the same header and, in their first `n` frames, the same pages. -/
structure SameLog (n : ℕ) (f f' : List UInt8) : Prop where
  size : f.length ≤ f'.length
  hdr : f'.take WAL_HDRSIZE = f.take WAL_HDRSIZE
  head : ∀ i, 0 < i → i ≤ n → (walFrame f' i).take 8 = (walFrame f i).take 8
  data : ∀ i, 0 < i → i ≤ n → frameData f' i = frameData f i

/-- Besides, the frames are the same. -/
structure SameFrames (n : ℕ) (f f' : List UInt8) : Prop where
  size : f.length ≤ f'.length
  hdr : f'.take WAL_HDRSIZE = f.take WAL_HDRSIZE
  frame : ∀ i, 0 < i → i ≤ n → walFrame f' i = walFrame f i

theorem SameFrames.refl : SameFrames n f f := ⟨le_rfl, rfl, fun _ _ _ => rfl⟩

theorem SameFrames.trans (h : SameFrames n f f') (h' : SameFrames n f' f'') :
    SameFrames n f f'' where
  size := h.size.trans h'.size
  hdr := h'.hdr.trans h.hdr
  frame := fun i hi hle => (h'.frame i hi hle).trans (h.frame i hi hle)

theorem SameFrames.mono (h : SameFrames n f f') (hm : m ≤ n) : SameFrames m f f' :=
  ⟨h.size, h.hdr, fun i hi hle => h.frame i hi (hle.trans hm)⟩

theorem SameFrames.sameLog (h : SameFrames n f f') : SameLog n f f' where
  size := h.size
  hdr := h.hdr
  head := fun i hi hle => by rw [h.frame i hi hle]
  data := fun i hi hle => by rw [frameData, frameData, h.frame i hi hle]

namespace SameLog

theorem mono (h : SameLog n f f') (hm : m ≤ n) : SameLog m f f' :=
  ⟨h.size, h.hdr, fun i hi hle => h.head i hi (hle.trans hm),
    fun i hi hle => h.data i hi (hle.trans hm)⟩

theorem refl : SameLog n f f := SameFrames.refl.sameLog

theorem trans (h : SameLog n f f') (h' : SameLog n f' f'') : SameLog n f f'' where
  size := h.size.trans h'.size
  hdr := h'.hdr.trans h.hdr
  head := fun i hi hle => (h'.head i hi hle).trans (h.head i hi hle)
  data := fun i hi hle => (h'.data i hi hle).trans (h.data i hi hle)

theorem pageSize (h : SameLog n f f') : walPageSize f' = walPageSize f := by
  rw [walPageSize, walPageSize, h.hdr]

theorem bigEnd (h : SameLog n f f') : walBigEnd f' = walBigEnd f := by
  rw [walBigEnd, walBigEnd, h.hdr]

theorem salt (h : SameLog n f f') : walSalt f' = walSalt f := by
  rw [walSalt, walSalt, h.hdr]

theorem cumCksum (h : SameLog n f f') : Btreelite.cumCksum f' n = Btreelite.cumCksum f n := by
  induction n with
  | zero => rw [Btreelite.cumCksum, Btreelite.cumCksum, h.bigEnd, h.hdr]
  | succ n ih =>
    have hd := h.data (n + 1) (Nat.succ_pos n) le_rfl
    simp only [frameData, WAL_FRAME_HDRSIZE] at hd
    rw [Btreelite.cumCksum, Btreelite.cumCksum, ih (h.mono (Nat.le_succ n)), h.bigEnd, h.pageSize,
      h.head (n + 1) (Nat.succ_pos n) le_rfl, hd]

theorem framePgno (h : SameLog n f f') (hi : 0 < i) (hle : i ≤ n) :
    Btreelite.framePgno f' i = Btreelite.framePgno f i := by
  have hu : ∀ l : List UInt8, get4byte l = get4byte (l.take 8) := by
    intro l
    simp [get4byte, u8, List.getD_eq_getElem?_getD]
  rw [Btreelite.framePgno, Btreelite.framePgno, hu, h.head i hi hle, ← hu]

theorem frameNTruncate (h : SameLog n f f') (hi : 0 < i) (hle : i ≤ n) :
    Btreelite.frameNTruncate f' i = Btreelite.frameNTruncate f i := by
  have hu : ∀ l : List UInt8, get4byte (l.drop 4) = get4byte ((l.take 8).drop 4) := by
    intro l
    simp [get4byte, u8, List.getD_eq_getElem?_getD, List.getElem?_drop]
  rw [Btreelite.frameNTruncate, Btreelite.frameNTruncate, hu, h.head i hi hle, ← hu]

theorem hdrOk (h : SameLog n f f') (hf : WalHdrOk f) : WalHdrOk f' where
  size := hf.size.trans_le h.size
  magic := by
    rw [h.hdr]
    exact hf.magic
  szPage := by
    rw [h.pageSize]
    exact hf.szPage
  small := by
    rw [h.pageSize]
    exact hf.small
  large := by
    rw [h.pageSize]
    exact hf.large
  cksum := by
    rw [(h.mono (Nat.zero_le n)).cumCksum, h.hdr]
    exact hf.cksum

end SameLog

namespace SameFrames

theorem frameOk (h : SameFrames n f f') (hle : i ≤ n) (hi : 0 < i) (hf : WalFrameOk f i) :
    WalFrameOk f' i where
  size := by
    have := hf.size
    have := h.size
    rw [h.sameLog.pageSize]
    omega
  pgno := by
    rw [h.sameLog.framePgno hi hle]
    exact hf.pgno
  salt := by
    rw [h.frame i hi hle, h.sameLog.salt]
    exact hf.salt
  cksum := by
    rw [(h.sameLog.mono hle).cumCksum, h.frame i hi hle]
    exact hf.cksum

end SameFrames

/-! ## Writes -/

variable {aData : List UInt8} {off : ℕ}

/-- A write behind the first `n` frames. -/
theorem SameFrames.write (hoff : walFrameOffset (n + 1) (walPageSize f) ≤ off)
    (hlen : off ≤ f.length) : SameFrames n f (pwrite 0 f off aData) := by
  have hbase : WAL_HDRSIZE ≤ walFrameOffset (n + 1) (walPageSize f) := Nat.le_add_right ..
  have hhdr : (pwrite 0 f off aData).take WAL_HDRSIZE = f.take WAL_HDRSIZE := by
    have := @pread_pwrite_of_le _ 0 f aData off 0 WAL_HDRSIZE hlen (by omega)
    simpa only [pread, List.drop_zero] using this
  refine ⟨pwrite_length_le, hhdr, fun i hi hle => ?_⟩
  have hend := @walFrameOffset_lt i (n + 1) (walPageSize f) hi (by omega)
  rw [walFrame, walFrame, walPageSize, hhdr, ← walPageSize, readFrame_eq, readFrame_eq]
  exact pread_pwrite_of_le hlen (by omega)

/-- A write inside frame `i` leaves the other frames. -/
theorem walFrame_write_of_ne (hlen : off ≤ f.length) (hoff : walFrameOffset i (walPageSize f) ≤ off)
    (hend : off + aData.length ≤ walFrameOffset i (walPageSize f)
      + (walPageSize f + WAL_FRAME_HDRSIZE)) (hi : 0 < i) (hj : 0 < j) (hne : j ≠ i) :
    walFrame (pwrite 0 f off aData) j = walFrame f j := by
  rcases Nat.lt_or_gt_of_ne hne with hlt | hgt
  · refine (SameFrames.write (n := i - 1) ?_ hlen).frame j hj (by omega)
    rwa [Nat.sub_add_cancel hi]
  · have hps : walPageSize (pwrite 0 f off aData) = walPageSize f :=
      (SameFrames.write (n := 0) ((walFrameOffset_mono hi).trans hoff) hlen).sameLog.pageSize
    have := @walFrameOffset_lt i j (walPageSize f) hi hgt
    rw [walFrame, walFrame, hps, readFrame_eq, readFrame_eq]
    exact pread_pwrite_of_ge hlen (by omega)

/-- A write of the bytes of frame `i` from its byte `k` on. -/
theorem walFrame_write_self {k : ℕ} (hi : 0 < i)
    (hin : k + aData.length ≤ walPageSize f + WAL_FRAME_HDRSIZE)
    (hlen : walFrameOffset i (walPageSize f) + k ≤ f.length) :
    walFrame (pwrite 0 f (walFrameOffset i (walPageSize f) + k) aData) i =
      (walFrame f i).take k ++ (aData ++ (walFrame f i).drop (k + aData.length)) := by
  have hps : walPageSize (pwrite 0 f (walFrameOffset i (walPageSize f) + k) aData) = walPageSize f :=
    (SameFrames.write (n := 0) ((walFrameOffset_mono hi).trans (Nat.le_add_right ..))
      hlen).sameLog.pageSize
  rw [walFrame, walFrame, hps, readFrame_eq, readFrame_eq]
  generalize walFrameOffset i (walPageSize f) = o at *
  generalize walPageSize f + WAL_FRAME_HDRSIZE = l at *
  have hk : (pread f o k).length = k := pread_length_of_le (by omega)
  have h1 : pread (pwrite 0 f (o + k) aData) o k = pread f o k :=
    pread_pwrite_of_le hlen le_rfl
  have h2 : pread (pwrite 0 f (o + k) aData) (o + k) aData.length = aData :=
    pread_pwrite_self hlen
  have h3 : pread (pwrite 0 f (o + k) aData) (o + (k + aData.length)) (l - (k + aData.length))
      = pread f (o + (k + aData.length)) (l - (k + aData.length)) :=
    pread_pwrite_of_ge hlen (by omega)
  have hl : l = k + (aData.length + (l - (k + aData.length))) := by omega
  rw [pread_drop, pread_take (by omega)]
  conv_lhs => rw [hl, pread_add, pread_add, h1, h2, Nat.add_assoc, h3]

end Frames

end Btreelite
