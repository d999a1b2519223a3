import Btreelite.Varint
import Btreelite.WalIndex
import Mathlib.Data.Nat.Find

/-!
# Recovery of the wal-index

`walIndexRecover` reads the WAL file frame by frame and rebuilds the header and the hash tables of
the wal-index from it. The file is its list of bytes. Each block of the wal-index is built in
private memory, which the next block reuses, and copied out.
-/

namespace Btreelite

open Prog

def WAL_HDRSIZE : ℕ := 32

def WAL_FRAME_HDRSIZE : ℕ := 24

def WAL_MAGIC : ℕ := 0x377f0682

def WAL_MAX_VERSION : ℕ := 3007000

def SQLITE_MAX_PAGE_SIZE : ℕ := 65536

def WAL_NREADER : ℕ := 5

def READMARK_NOT_USED : ℕ := 0xffffffff

/-- `WalIndexHdr`, without its own version and checksum. -/
structure WalIndexHdr where
  iChange : ℕ
  isInit : Bool
  bigEndCksum : Bool
  szPage : ℕ
  mxFrame : ℕ
  nPage : ℕ
  aFrameCksum : ℕ × ℕ
  aSalt : List UInt8
deriving DecidableEq, Repr

def WalIndexHdr.zero : WalIndexHdr := ⟨0, false, false, 0, 0, 0, (0, 0), [0, 0, 0, 0, 0, 0, 0, 0]⟩

structure WalCkptInfo where
  nBackfill : ℕ
  aReadMark : ℕ → ℕ
  nBackfillAttempted : ℕ

/-- The part of a `Wal` handle that reading frames changes. -/
structure Wal where
  hdr : WalIndexHdr
  szPage : ℕ
  nCkpt : ℕ

/-- A 32-bit word of the data to be checksummed. -/
def cksumWord (bigEnd : Bool) (a b c d : UInt8) : ℕ :=
  if bigEnd then a.toNat * 2 ^ 24 + b.toNat * 2 ^ 16 + c.toNat * 2 ^ 8 + d.toNat
  else d.toNat * 2 ^ 24 + c.toNat * 2 ^ 16 + b.toNat * 2 ^ 8 + a.toNat

/-- `walChecksumBytes`. On either kind of host, the native words of a log whose `bigEndCksum` is
that of the host are the words that `bigEndCksum` names. -/
def walChecksumBytes (bigEnd : Bool) : List UInt8 → ℕ × ℕ → ℕ × ℕ
  | a :: b :: c :: d :: a' :: b' :: c' :: d' :: rest, (s1, s2) =>
    let s1 := (s1 + (cksumWord bigEnd a b c d + s2)) % 2 ^ 32
    let s2 := (s2 + (cksumWord bigEnd a' b' c' d' + s1)) % 2 ^ 32
    walChecksumBytes bigEnd rest (s1, s2)
  | _, s => s

def walFrameOffset (iFrame szPage : ℕ) : ℕ :=
  WAL_HDRSIZE + (iFrame - 1) * (szPage + WAL_FRAME_HDRSIZE)

/-- The read of one frame. -/
def readFrame (file : List UInt8) (iFrame szPage : ℕ) : List UInt8 :=
  (file.drop (walFrameOffset iFrame szPage)).take (szPage + WAL_FRAME_HDRSIZE)

/-- `walDecodeFrame`: the page number and commit size of a valid frame. -/
def walDecodeFrame (pWal : Wal) (aFrame : List UInt8) : Wal × Option (ℕ × ℕ) :=
  if (aFrame.drop 8).take 8 ≠ pWal.hdr.aSalt then (pWal, none)
  else
    let pgno := get4byte aFrame
    if pgno = 0 then (pWal, none)
    else if pWal.szPage = 0 then (pWal, none)
    else
      let aData := (aFrame.drop WAL_FRAME_HDRSIZE).take pWal.szPage
      let aCksum := walChecksumBytes pWal.hdr.bigEndCksum (aFrame.take 8) pWal.hdr.aFrameCksum
      let aCksum := walChecksumBytes pWal.hdr.bigEndCksum aData aCksum
      let pWal := { pWal with hdr := { pWal.hdr with aFrameCksum := aCksum } }
      if aCksum ≠ (get4byte (aFrame.drop 16), get4byte (aFrame.drop 20)) then (pWal, none)
      else (pWal, some (pgno, get4byte (aFrame.drop 4)))

/-- The two bytes that stand for a page size in the header. -/
def hdrSzPage (szPage : ℕ) : ℕ := ((szPage &&& 0xff00) ||| szPage >>> 16) % 2 ^ 16

/-- What the loops of `walIndexRecover` change: the handle, and the checksum of the last commit. -/
structure Recovery where
  pWal : Wal
  aFrameCksum : ℕ × ℕ

/-- The statements after a valid frame. -/
def Recovery.commit (r : Recovery) (iFrame nTruncate : ℕ) : Recovery :=
  if nTruncate ≠ 0 then
    { pWal := { r.pWal with hdr := { r.pWal.hdr with
        mxFrame := iFrame, nPage := nTruncate, szPage := hdrSzPage r.pWal.szPage } }
      aFrameCksum := r.pWal.hdr.aFrameCksum }
  else r

/-- The loop over the frames of one block, with `n` frames left of it: the first frame that was
not read, and the new state. -/
def recoverFrames (file : List UInt8) : ℕ → ℕ → Recovery → ShmM (ℕ × Recovery)
  | 0, iFrame, r => pure (iFrame, r)
  | n + 1, iFrame, r =>
    match walDecodeFrame r.pWal (readFrame file iFrame r.pWal.szPage) with
    | (pWal, none) => pure (iFrame, { r with pWal })
    | (pWal, some (pgno, nTruncate)) => do
      walIndexAppend pWal.hdr.mxFrame iFrame pgno
      recoverFrames file n (iFrame + 1) (Recovery.commit { r with pWal } iFrame nTruncate)

/-- Runs `m` with block `iHash` in private memory, which starts as `aPrivate`. -/
def onPrivate {α : Type} (iHash : ℕ) (aPrivate : WalHashLoc) (m : ShmM α) :
    ShmM (α × WalHashLoc) := fun s =>
  match m ⟨Function.update s.apWiData iHash aPrivate, []⟩ with
  | .ok a s' => .ok (a, s'.apWiData iHash) s
  | .error e _ => .error e s

/-- The loop over the blocks of the wal-index, with `n` blocks left. -/
def recoverBlocks (file : List UInt8) (iLastFrame : ℕ) :
    ℕ → ℕ → WalHashLoc → Recovery → ShmM Recovery
  | 0, _, _, r => pure r
  | n + 1, iPg, aPrivate, r => do
    let iLast := min iLastFrame (HASHTABLE_NPAGE_ONE + iPg * HASHTABLE_NPAGE)
    let iFirst := 1 + iZero iPg
    let ((iFrame, r), aPrivate) ←
      onPrivate iPg aPrivate (recoverFrames file (iLast + 1 - iFirst) iFirst r)
    store iPg fun _ => aPrivate
    if iFrame ≤ iLast then pure r else recoverBlocks file iLastFrame n (iPg + 1) aPrivate r

/-- The read marks that recovery leaves; it skips those that a reader has locked. -/
def resetReadMarks (busy : ℕ → Bool) (mxFrame : ℕ) (info : WalCkptInfo) : WalCkptInfo :=
  { nBackfill := 0
    nBackfillAttempted := mxFrame
    aReadMark := fun i =>
      if i = 0 then 0
      else if WAL_NREADER ≤ i ∨ busy i = true then info.aReadMark i
      else if i = 1 ∧ mxFrame ≠ 0 then mxFrame else READMARK_NOT_USED }

/-- What `walIndexRecover` reads from the file. -/
def recoverFile (file : List UInt8) (aPrivate : WalHashLoc) (pWal : Wal) : ShmM Recovery :=
  let aBuf := file.take WAL_HDRSIZE
  let magic := get4byte aBuf
  let szPage := get4byte (aBuf.drop 8)
  if file.length ≤ WAL_HDRSIZE then
    pure ⟨pWal, (0, 0)⟩
  else if magic &&& 0xFFFFFFFE ≠ WAL_MAGIC ∨ szPage &&& (szPage - 1) ≠ 0
      ∨ SQLITE_MAX_PAGE_SIZE < szPage ∨ szPage < 512 then
    pure ⟨pWal, (0, 0)⟩
  else
    let bigEndCksum := decide (magic % 2 = 1)
    let aFrameCksum := walChecksumBytes bigEndCksum (aBuf.take (WAL_HDRSIZE - 2 * 4)) (0, 0)
    let pWal : Wal :=
      { hdr := { pWal.hdr with bigEndCksum, aFrameCksum, aSalt := (aBuf.drop 16).take 8 }
        szPage
        nCkpt := get4byte (aBuf.drop 12) }
    if aFrameCksum ≠ (get4byte (aBuf.drop 24), get4byte (aBuf.drop 28)) then
      pure ⟨pWal, (0, 0)⟩
    else if get4byte (aBuf.drop 4) ≠ WAL_MAX_VERSION then
      throw .cantopen
    else
      let iLastFrame := (file.length - WAL_HDRSIZE) / (szPage + WAL_FRAME_HDRSIZE) % 2 ^ 32
      recoverBlocks file iLastFrame (walFramePage iLastFrame + 1) 0 aPrivate ⟨pWal, (0, 0)⟩

/-- `walIndexRecover`, once it has its locks: the handle, whose header is the new shared header,
and the new checkpoint information. -/
def walIndexRecover (file : List UInt8) (aPrivate : WalHashLoc) (busy : ℕ → Bool) (pWal : Wal)
    (info : WalCkptInfo) : ShmM (Wal × WalCkptInfo) := do
  let pWal := { pWal with hdr := WalIndexHdr.zero }
  let r ← recoverFile file aPrivate pWal
  let hdr := { r.pWal.hdr with aFrameCksum := r.aFrameCksum, isInit := true }
  return ({ r.pWal with hdr }, resetReadMarks busy hdr.mxFrame info)

/-! ## What the file holds -/

section File

variable (file : List UInt8)

def walPageSize : ℕ := get4byte ((file.take WAL_HDRSIZE).drop 8)

def walBigEnd : Bool := decide (get4byte (file.take WAL_HDRSIZE) % 2 = 1)

def walSalt : List UInt8 := ((file.take WAL_HDRSIZE).drop 16).take 8

def walFrame (i : ℕ) : List UInt8 := readFrame file i (walPageSize file)

def framePgno (i : ℕ) : ℕ := get4byte (walFrame file i)

/-- The commit size in a frame, zero for one that does not end a transaction. -/
def frameNTruncate (i : ℕ) : ℕ := get4byte ((walFrame file i).drop 4)

/-- The cumulative checksum of the header and the first frames. -/
def cumCksum : ℕ → ℕ × ℕ
  | 0 => walChecksumBytes (walBigEnd file) ((file.take WAL_HDRSIZE).take 24) (0, 0)
  | i + 1 =>
    walChecksumBytes (walBigEnd file) (((walFrame file (i + 1)).drop 24).take (walPageSize file))
      (walChecksumBytes (walBigEnd file) ((walFrame file (i + 1)).take 8) (cumCksum i))

structure WalHdrOk : Prop where
  size : WAL_HDRSIZE < file.length
  magic : get4byte (file.take WAL_HDRSIZE) &&& 0xFFFFFFFE = WAL_MAGIC
  szPage : walPageSize file &&& (walPageSize file - 1) = 0
  small : walPageSize file ≤ SQLITE_MAX_PAGE_SIZE
  large : 512 ≤ walPageSize file
  cksum : cumCksum file 0
    = (get4byte ((file.take WAL_HDRSIZE).drop 24), get4byte ((file.take WAL_HDRSIZE).drop 28))

structure WalFrameOk (i : ℕ) : Prop where
  size : WAL_HDRSIZE + i * (walPageSize file + WAL_FRAME_HDRSIZE) ≤ file.length
  pgno : framePgno file i ≠ 0
  salt : ((walFrame file i).drop 8).take 8 = walSalt file
  cksum : cumCksum file i
    = (get4byte ((walFrame file i).drop 16), get4byte ((walFrame file i).drop 20))

/-- Frame `n` ends a transaction, and it and all frames before it are good. -/
structure WalCommits (n : ℕ) : Prop where
  pos : 0 < n
  hdr : WalHdrOk file
  frames : ∀ i, 0 < i → i ≤ n → WalFrameOk file i
  nTruncate : frameNTruncate file n ≠ 0

/-- The pages of the first frames. -/
def walPgnos (n : ℕ) : List ℕ := (List.range n).map fun i => framePgno file (i + 1)

/-- The first `v` frames are good and the next is not. -/
def WalValid (v : ℕ) : Prop :=
  (∀ i, 0 < i → i ≤ v → WalFrameOk file i) ∧ ¬ WalFrameOk file (v + 1)

variable {file}

@[simp] theorem walPgnos_length (n : ℕ) : (walPgnos file n).length = n := by
  simp [walPgnos]

theorem walPgnos_succ (n : ℕ) :
    walPgnos file (n + 1) = walPgnos file n ++ [framePgno file (n + 1)] := by
  simp [walPgnos, List.range_succ]

theorem walPgnos_take {m n : ℕ} (h : m ≤ n) : (walPgnos file n).take m = walPgnos file m := by
  simp [walPgnos, ← List.map_take, List.take_range, Nat.min_eq_left h]

theorem walPgnos_add (m k : ℕ) : ∃ l, walPgnos file (m + k) = walPgnos file m ++ l := by
  refine ⟨(walPgnos file (m + k)).drop m, ?_⟩
  rw [← walPgnos_take (Nat.le_add_right m k), List.take_append_drop]

theorem WalFrameOk.le {i : ℕ} (h : WalFrameOk file i) :
    i ≤ (file.length - WAL_HDRSIZE) / (walPageSize file + WAL_FRAME_HDRSIZE) := by
  rw [Nat.le_div_iff_mul_le (by unfold WAL_FRAME_HDRSIZE; omega)]
  have := h.size
  omega

theorem exists_walValid : ∃ v, WalValid file v := by
  classical
  have hex : ∃ v, ¬ WalFrameOk file (v + 1) :=
    ⟨(file.length - WAL_HDRSIZE) / (walPageSize file + WAL_FRAME_HDRSIZE),
      fun h => absurd h.le (by omega)⟩
  refine ⟨Nat.find hex, fun i hi hle => ?_, Nat.find_spec hex⟩
  obtain ⟨j, rfl⟩ : ∃ j, i = j + 1 := ⟨i - 1, by omega⟩
  exact not_not.1 (@Nat.find_min _ _ hex j (by omega))

end File

/-! ## The loops -/

section Loops

variable {file : List UInt8} {w : WalIndex} {v f n : ℕ} {r : Recovery}

/-- The commits among the frames before `f`. -/
def commitsBefore (file : List UInt8) (f : ℕ) : Set ℕ :=
  {n | 0 < n ∧ n < f ∧ frameNTruncate file n ≠ 0}

/-- The header has the constants of the log. -/
structure WalIndexHdr.OfFile (hdr : WalIndexHdr) (file : List UInt8) : Prop where
  salt : hdr.aSalt = walSalt file
  bigEnd : hdr.bigEndCksum = walBigEnd file
  szPage : hdr.szPage = hdrSzPage (walPageSize file)

/-- The last commit before frame `f` has been recorded. -/
structure Recovery.Found (file : List UInt8) (f : ℕ) (r : Recovery) : Prop where
  latest : IsLatest (commitsBefore file f) r.pWal.hdr.mxFrame
  commit : r.pWal.hdr.mxFrame ≠ 0 → r.pWal.hdr.nPage = frameNTruncate file r.pWal.hdr.mxFrame ∧
    r.aFrameCksum = cumCksum file r.pWal.hdr.mxFrame
  header : r.pWal.hdr.mxFrame ≠ 0 → r.pWal.hdr.OfFile file
  saltLength : r.pWal.hdr.aSalt.length = 8

/-- The handle is about to decode frame `f`. -/
structure Recovery.At (file : List UInt8) (f : ℕ) (r : Recovery) : Prop
    extends Recovery.Found file f r where
  salt : r.pWal.hdr.aSalt = walSalt file
  bigEnd : r.pWal.hdr.bigEndCksum = walBigEnd file
  szPage : r.pWal.szPage = walPageSize file
  cksum : r.pWal.hdr.aFrameCksum = cumCksum file (f - 1)

/-- A handle that has taken the checksum of a frame. -/
def Wal.withCksum (pWal : Wal) (c : ℕ × ℕ) : Wal :=
  { pWal with hdr := { pWal.hdr with aFrameCksum := c } }

theorem Recovery.At.decode_eq (hr : r.At file (f + 1)) (hsz : walPageSize file ≠ 0) :
    walDecodeFrame r.pWal (walFrame file (f + 1)) =
      if ((walFrame file (f + 1)).drop 8).take 8 ≠ walSalt file then (r.pWal, none)
      else if framePgno file (f + 1) = 0 then (r.pWal, none)
      else if cumCksum file (f + 1) ≠ (get4byte ((walFrame file (f + 1)).drop 16),
          get4byte ((walFrame file (f + 1)).drop 20)) then
        (r.pWal.withCksum (cumCksum file (f + 1)), none)
      else (r.pWal.withCksum (cumCksum file (f + 1)),
        some (framePgno file (f + 1), frameNTruncate file (f + 1))) := by
  have hcf : r.pWal.hdr.aFrameCksum = cumCksum file f := hr.cksum
  simp only [walDecodeFrame, Wal.withCksum, hr.salt, hr.bigEnd, hr.szPage, hcf, hsz, if_false,
    framePgno, frameNTruncate, cumCksum, WAL_FRAME_HDRSIZE]

/-- A good frame is decoded. -/
theorem Recovery.At.decode (hr : r.At file (f + 1)) (hsz : walPageSize file ≠ 0)
    (hok : WalFrameOk file (f + 1)) :
    walDecodeFrame r.pWal (walFrame file (f + 1)) = (r.pWal.withCksum (cumCksum file (f + 1)),
      some (framePgno file (f + 1), frameNTruncate file (f + 1))) := by
  rw [hr.decode_eq hsz, if_neg (not_not.2 hok.salt), if_neg hok.pgno, if_neg (not_not.2 hok.cksum)]

/-- A frame that lies in the file but is not good is refused. -/
theorem Recovery.At.refuse (hr : r.At file (f + 1)) (hsz : walPageSize file ≠ 0)
    (hin : WAL_HDRSIZE + (f + 1) * (walPageSize file + WAL_FRAME_HDRSIZE) ≤ file.length)
    (hok : ¬ WalFrameOk file (f + 1)) :
    ∃ c, walDecodeFrame r.pWal (walFrame file (f + 1)) = (r.pWal.withCksum c, none) := by
  rw [hr.decode_eq hsz]
  split_ifs with hsalt hpgno hcksum
  · exact ⟨r.pWal.hdr.aFrameCksum, rfl⟩
  · exact ⟨r.pWal.hdr.aFrameCksum, rfl⟩
  · exact ⟨_, rfl⟩
  · exact absurd ⟨hin, hpgno, not_not.1 hsalt, not_not.1 hcksum⟩ hok

theorem Recovery.Found.withCksum (hr : r.Found file f) (c : ℕ × ℕ) :
    Recovery.Found file f { r with pWal := r.pWal.withCksum c } :=
  ⟨hr.latest, hr.commit, fun h => ⟨(hr.header h).1, (hr.header h).2, (hr.header h).3⟩, hr.saltLength⟩

/-- After a good frame the handle is at the next one. -/
theorem Recovery.At.next (hr : r.At file (f + 1)) :
    (Recovery.commit { r with pWal := r.pWal.withCksum (cumCksum file (f + 1)) } (f + 1)
      (frameNTruncate file (f + 1))).At file (f + 2) := by
  have hset : frameNTruncate file (f + 1) = 0 →
      commitsBefore file (f + 2) = commitsBefore file (f + 1) := by
    intro h0
    ext n
    simp only [commitsBefore, Set.mem_ofPred_eq]
    constructor
    · intro ⟨h1, h2, h3⟩
      have hne : n ≠ f + 1 := by
        intro e
        exact h3 (e ▸ h0)
      exact ⟨h1, by omega, h3⟩
    · intro ⟨h1, h2, h3⟩
      exact ⟨h1, by omega, h3⟩
  unfold Recovery.commit
  split_ifs with h0
  · have hlast : IsGreatest (commitsBefore file (f + 2)) (f + 1) :=
      ⟨⟨by omega, by omega, h0⟩, fun n hn => by have := hn.2.1; omega⟩
    exact
      { latest := .inl hlast
        commit := fun _ => ⟨rfl, rfl⟩
        header := fun _ => ⟨hr.salt, hr.bigEnd, congrArg hdrSzPage hr.szPage⟩
        saltLength := hr.saltLength
        salt := hr.salt
        bigEnd := hr.bigEnd
        szPage := hr.szPage
        cksum := rfl }
  · exact
      { latest := (hset (not_not.1 h0)) ▸ hr.latest
        commit := hr.commit
        header := (hr.toFound.withCksum _).header
        saltLength := hr.saltLength
        salt := hr.salt
        bigEnd := hr.bigEnd
        szPage := hr.szPage
        cksum := rfl }

theorem recoverFrames_stays (hsz : walPageSize file ≠ 0) (hv : WalValid file v) :
    ∀ (n f : ℕ) (r : Recovery) (w : WalIndex), f ≤ v → r.At file (f + 1) →
      WAL_HDRSIZE + (f + n) * (walPageSize file + WAL_FRAME_HDRSIZE) ≤ file.length →
      Indexes w (walPgnos file f) → Trimmed w (walPgnos file f) →
      Stays (fun _ => True) (recoverFrames file n (f + 1) r) w fun x w' =>
        x.1 = min v (f + n) + 1 ∧ x.2.Found file x.1 ∧ (f + n ≤ v → x.2.At file x.1) ∧
          Indexes w' (walPgnos file (min v (f + n))) ∧ Trimmed w' (walPgnos file (min v (f + n)))
  | 0, f, r, w, hf, hr, _, hw, ht => by
    have hmin : min v (f + 0) = f := Nat.min_eq_right hf
    simp only [recoverFrames, hmin]
    exact Stays.pure ⟨rfl, hr.toFound, fun _ => hr, hw, ht⟩
  | n + 1, f, r, w, hf, hr, hin, hw, ht => by
    unfold recoverFrames
    rw [hr.szPage]
    rcases Nat.lt_or_eq_of_le hf with hlt | rfl
    · have hok := hv.1 (f + 1) (by omega) hlt
      have hd := hr.decode hsz hok
      unfold walFrame at hd
      simp only [hd]
      have happ := @walIndexAppend_stays _ r.pWal.hdr.mxFrame _ _ hw (.inr ht) hok.pgno
      rw [walPgnos_length, ← walPgnos_succ] at happ
      refine (happ.weaken fun _ _ => trivial).bind fun _ w₁ ⟨hw₁, ht₁⟩ => ?_
      have hrec := recoverFrames_stays hsz hv n (f + 1) _ w₁ hlt hr.next
        (by rwa [Nat.add_right_comm f 1 n]) hw₁ ht₁
      rwa [Nat.add_right_comm f 1 n] at hrec
    · have hin' : WAL_HDRSIZE + (f + 1) * (walPageSize file + WAL_FRAME_HDRSIZE) ≤ file.length := by
        refine le_trans (Nat.add_le_add_left (Nat.mul_le_mul_right _ ?_) _) hin
        omega
      obtain ⟨c, hc⟩ := hr.refuse hsz hin' hv.2
      unfold walFrame at hc
      simp only [hc]
      have hmin : min f (f + (n + 1)) = f := Nat.min_eq_left (by omega)
      rw [hmin]
      exact Stays.pure ⟨rfl, hr.toFound.withCksum c, fun h => absurd h (by omega), hw, ht⟩

theorem onPrivate_stays {α : Type} {I : WalIndex → Prop} {m : ShmM α} {Q : α → WalIndex → Prop}
    {h : ℕ} {b : WalHashLoc} (hm : Stays (fun _ => True) m (Function.update w h b) Q) :
    Stays I (onPrivate h b m) w fun x w' => w' = w ∧ ∃ w₁, Q x.1 w₁ ∧ x.2 = w₁ h := by
  intro past
  have hw := hm []
  unfold wp at hw ⊢
  unfold onPrivate
  simp only []
  cases hr : m ⟨Function.update w h b, []⟩ with
  | ok a s =>
    rw [hr] at hw
    exact ⟨⟨rfl, _, hw.1, rfl⟩, [], rfl, fun _ hx => absurd hx (by simp)⟩
  | error e s =>
    rw [hr] at hw
    exact hw

theorem trimmed_of_length {h : ℕ} {log : List ℕ} (hlen : log.length = iZero h) :
    Trimmed w log := by
  intro h' hh hlt
  rcases Nat.lt_or_ge h' h with hlt' | hge
  · have := iZero_mono hlt'
    omega
  · rcases Nat.lt_or_eq_of_le hge with hlt' | rfl
    · have := iZero_mono hlt'
      omega
    · omega

/-- A block that indexes the log up to frame `e` indexes what is shorter, and if it is full what is
longer. -/
theorem live_walPgnos {b : WalHashLoc} {h e c : ℕ} (hne : ∀ p ∈ walPgnos file e, p ≠ 0)
    (hb : b.Live h (walPgnos file e)) (hc : c ≤ e ∨ iZero (h + 1) ≤ e) :
    b.Live h (walPgnos file c) := by
  rcases Nat.le_total c e with hle | hle
  · rw [← walPgnos_take hle]
    exact hb.take hne (by rwa [walPgnos_length])
  · rcases Nat.lt_or_eq_of_le hle with hlt | rfl
    · obtain ⟨k, rfl⟩ := Nat.exists_eq_add_of_le hle
      obtain ⟨l, hl⟩ := @walPgnos_add file e k
      rw [hl]
      refine hb.append ?_
      rw [walPgnos_length, ← iZero_succ]
      omega
    · exact hb

/-- The last frame of a block. -/
theorem iZero_succ' (iPg : ℕ) : HASHTABLE_NPAGE_ONE + iPg * HASHTABLE_NPAGE = iZero (iPg + 1) := rfl

theorem iZero_le_of_walFramePage {iPg L : ℕ} (h : iPg ≤ walFramePage L) : iZero iPg ≤ L := by
  unfold walFramePage at h
  unfold iZero
  unfold HASHTABLE_NPAGE HASHTABLE_NPAGE_ONE at *
  split_ifs <;> omega

theorem recoverBlocks_stays {L c : ℕ} (hsz : walPageSize file ≠ 0) (hv : WalValid file v)
    (hL : WAL_HDRSIZE + L * (walPageSize file + WAL_FRAME_HDRSIZE) ≤ file.length) (hvL : v ≤ L)
    (hc : c ≤ v) : ∀ (n iPg : ℕ) (aPrivate : WalHashLoc) (r : Recovery) (w : WalIndex),
      iPg + n = walFramePage L → iZero iPg ≤ v → r.At file (iZero iPg + 1) →
      Indexes w (walPgnos file (iZero iPg)) → Indexes w (walPgnos file c) →
      Stays (Indexes · (walPgnos file c)) (recoverBlocks file L (n + 1) iPg aPrivate r) w
        fun r' w' => r'.Found file (v + 1) ∧ Indexes w' (walPgnos file v)
  | n, iPg, aPrivate, r, w, hn, hz, hr, hw, hbase => by
    have hzL := @iZero_le_of_walFramePage iPg L (by omega)
    have hzs := iZero_succ iPg
    unfold recoverBlocks
    simp only [iZero_succ']
    set iLast := min L (iZero (iPg + 1)) with hiLast
    have hle : iZero iPg ≤ iLast := by
      have := nPage_pos iPg
      omega
    have hinL : WAL_HDRSIZE + iLast * (walPageSize file + WAL_FRAME_HDRSIZE) ≤ file.length :=
      le_trans (Nat.add_le_add_left (Nat.mul_le_mul_right _ (Nat.min_le_left _ _)) _) hL
    have hadd : iZero iPg + (iLast - iZero iPg) = iLast := by omega
    have hframes := recoverFrames_stays hsz hv (iLast - iZero iPg) (iZero iPg) r
      (Function.update w iPg aPrivate) hz hr (by rwa [hadd])
      (hw.update fun hlt => absurd hlt (by rw [walPgnos_length]; omega))
      (trimmed_of_length (walPgnos_length _))
    rw [hadd] at hframes
    rw [show iLast + 1 - (1 + iZero iPg) = iLast - iZero iPg by omega, Nat.add_comm 1]
    refine (onPrivate_stays hframes).bind fun x w₁ ⟨hw₁, w₂, hx, hb⟩ => ?_
    obtain ⟨⟨iFrame, r'⟩, b⟩ := x
    obtain ⟨hf, hfound, hat, hw₂, -⟩ := hx
    simp only at hf hfound hat hb ⊢
    subst hw₁ hf hb
    refine (store_stays hbase).bind fun _ w₃ hw₃ => ?_
    subst hw₃
    have hM : iZero iPg ≤ min v iLast := le_min hz hle
    have hnew : Indexes (Function.update w₁ iPg (w₂ iPg)) (walPgnos file (min v iLast)) := by
      refine ⟨hw₂.1, fun h hh => ?_⟩
      rcases Nat.lt_trichotomy h iPg with hlt | rfl | hgt
      · have := iZero_mono hlt
        have := nPage_pos h
        rw [Function.update_of_ne hlt.ne]
        refine live_walPgnos hw.1 (hw.2 h ?_) (.inr ?_)
        · rw [walPgnos_length]
          omega
        · rw [iZero_succ]
          omega
      · rw [Function.update_self]
        exact hw₂.2 h hh
      · have := iZero_mono hgt
        rw [walPgnos_length] at hh
        omega
    have hbase' : Indexes (Function.update w₁ iPg (w₂ iPg)) (walPgnos file c) := by
      refine hbase.update fun hlt => ?_
      rw [walPgnos_length] at hlt
      refine live_walPgnos hw₂.1 (hw₂.2 iPg ?_) (by omega)
      rw [walPgnos_length]
      have := nPage_pos iPg
      omega
    refine Stays.ite (fun hstop => ?_) fun hgo => ?_
    · have hmin : min v iLast = v := by omega
      rw [hmin] at hfound hnew
      exact Stays.pure ⟨hfound, hnew⟩
    · have hmin : min v iLast = iLast := by omega
      rw [hmin] at hfound hnew hat
      cases n with
      | zero =>
        have hlast : v = iLast := by
          rcases Nat.eq_zero_or_pos L with h0 | hpos
          · omega
          · have := (iZero_walFramePage hpos).2
            rw [← hn, Nat.add_zero] at this
            omega
        rw [← hlast] at hfound hnew
        exact Stays.pure ⟨hfound, hnew⟩
      | succ n =>
        have hnext := iZero_le_of_walFramePage (show iPg + 1 ≤ walFramePage L by omega)
        have hlast : iLast = iZero (iPg + 1) := Nat.min_eq_right hnext
        rw [hlast] at hfound hnew hat
        exact recoverBlocks_stays hsz hv hL hvL hc n (iPg + 1) _ r' _ (by omega) (by omega)
          (hat (by omega)) hnew hbase'

end Loops

/-! ## Recovery finds the committed prefix -/

section Recover

variable {file : List UInt8} {w : WalIndex} {v c : ℕ}

/-- The number of good frames; none counts when the header is not good. -/
def WalGood (file : List UInt8) (v : ℕ) : Prop :=
  (WalHdrOk file ∧ WalValid file v) ∨ (¬ WalHdrOk file ∧ v = 0)

theorem exists_walGood : ∃ v, WalGood file v := by
  by_cases h : WalHdrOk file
  · obtain ⟨v, hv⟩ := @exists_walValid file
    exact ⟨v, .inl ⟨h, hv⟩⟩
  · exact ⟨0, .inr ⟨h, rfl⟩⟩

theorem WalGood.commits (hv : WalGood file v) :
    {n | WalCommits file n} = commitsBefore file (v + 1) := by
  ext n
  simp only [commitsBefore, Set.mem_ofPred_eq]
  rcases hv with ⟨hh, hv⟩ | ⟨hh, rfl⟩
  · constructor
    · intro hn
      refine ⟨hn.pos, ?_, hn.nTruncate⟩
      by_contra hlt
      exact hv.2 (hn.frames (v + 1) (by omega) (by omega))
    · intro ⟨h1, h2, h3⟩
      exact ⟨h1, hh, fun i hi hle => hv.1 i hi (by omega), h3⟩
  · constructor
    · intro hn
      exact absurd hn.hdr hh
    · intro ⟨h1, h2, _⟩
      omega

theorem WalGood.latest_le (hv : WalGood file v) {n : ℕ}
    (hn : IsLatest {n | WalCommits file n} n) : n ≤ v := by
  rw [hv.commits] at hn
  rcases hn with hg | ⟨-, h0⟩
  · exact Nat.lt_succ_iff.1 hg.1.2.1
  · omega

/-- Nothing is recorded when the header is not good. -/
theorem Recovery.found_zero {r : Recovery} (h0 : r.pWal.hdr.mxFrame = 0)
    (hs : r.pWal.hdr.aSalt.length = 8) : r.Found file (0 + 1) := by
  refine ⟨.inr ⟨Set.eq_empty_of_forall_notMem fun n hn => ?_, h0⟩, fun h => absurd h0 h,
    fun h => absurd h0 h, hs⟩
  have := hn.1
  have := hn.2.1
  omega

theorem walSalt_length (h : WAL_HDRSIZE ≤ file.length) : (walSalt file).length = 8 := by
  rw [walSalt, List.length_take, List.length_drop, List.length_take]
  unfold WAL_HDRSIZE at *
  omega

theorem recoverFile_stays {aPrivate : WalHashLoc} {pWal : Wal}
    (hver : WalHdrOk file → get4byte ((file.take WAL_HDRSIZE).drop 4) = WAL_MAX_VERSION)
    (hfew : WalHdrOk file → (file.length - WAL_HDRSIZE) / (walPageSize file + WAL_FRAME_HDRSIZE)
      < 2 ^ 32 - HASHTABLE_NPAGE)
    (hv : WalGood file v) (hc : c ≤ v) (hp : pWal.hdr.mxFrame = 0)
    (hs : pWal.hdr.aSalt.length = 8) (hw : Indexes w (walPgnos file c)) :
    Stays (Indexes · (walPgnos file c)) (recoverFile file aPrivate pWal) w fun r w' =>
      r.Found file (v + 1) ∧ Indexes w' (walPgnos file v) := by
  have hbad : ∀ r : Recovery, r.pWal.hdr.mxFrame = 0 ∧ r.pWal.hdr.aSalt.length = 8 →
      ¬ WalHdrOk file → Stays (Indexes · (walPgnos file c)) (pure r) w fun r w' =>
        r.Found file (v + 1) ∧ Indexes w' (walPgnos file v) := by
    intro r hr hh
    obtain ⟨-, rfl⟩ := hv.resolve_left fun h => hh h.1
    exact Stays.pure ⟨Recovery.found_zero hr.1 hr.2, Indexes.nil w⟩
  unfold recoverFile
  simp only []
  refine Stays.ite (fun hsize => hbad _ ⟨hp, hs⟩ fun hh => absurd hh.size (by omega)) fun hsize => ?_
  refine Stays.ite (fun hf => hbad _ ⟨hp, hs⟩ fun hh => ?_) fun hf => ?_
  · rcases hf with hf | hf | hf | hf
    · exact hf hh.magic
    · exact hf hh.szPage
    · have := hh.small
      unfold walPageSize at this
      omega
    · have := hh.large
      unfold walPageSize at this
      omega
  have hsalt := walSalt_length (show WAL_HDRSIZE ≤ file.length by omega)
  refine Stays.ite (fun hck => hbad _ ⟨hp, hsalt⟩ fun hh => hck hh.cksum) fun hck => ?_
  have hh : WalHdrOk file := by
    simp only [not_or, not_not, not_lt] at hf hck
    exact ⟨by omega, hf.1, hf.2.1, hf.2.2.1, hf.2.2.2, hck⟩
  refine Stays.ite (fun hv' => absurd (hver hh) hv') fun _ => ?_
  obtain ⟨-, hv⟩ := hv.resolve_right fun h => h.1 hh
  have hsz : walPageSize file ≠ 0 := by
    have := hh.large
    omega
  have hq : (file.length - WAL_HDRSIZE) / (walPageSize file + WAL_FRAME_HDRSIZE) % 2 ^ 32
      = (file.length - WAL_HDRSIZE) / (walPageSize file + WAL_FRAME_HDRSIZE) :=
    Nat.mod_eq_of_lt (by have := hfew hh; omega)
  have hL : WAL_HDRSIZE + (file.length - WAL_HDRSIZE) / (walPageSize file + WAL_FRAME_HDRSIZE)
      * (walPageSize file + WAL_FRAME_HDRSIZE) ≤ file.length := by
    have := Nat.div_mul_le_self (file.length - WAL_HDRSIZE) (walPageSize file + WAL_FRAME_HDRSIZE)
    omega
  have hvL : v ≤ (file.length - WAL_HDRSIZE) / (walPageSize file + WAL_FRAME_HDRSIZE) := by
    rcases Nat.eq_zero_or_pos v with rfl | hpos
    · exact Nat.zero_le _
    · exact (hv.1 v hpos le_rfl).le
  have hrec := recoverBlocks_stays hsz hv hL hvL hc _ 0 aPrivate
    ⟨{ hdr := { pWal.hdr with
        bigEndCksum := walBigEnd file, aFrameCksum := cumCksum file 0, aSalt := walSalt file }
       szPage := walPageSize file
       nCkpt := get4byte ((file.take WAL_HDRSIZE).drop 12) }, (0, 0)⟩ w (Nat.zero_add _)
    (Nat.zero_le _)
    { toFound := Recovery.found_zero hp hsalt, salt := rfl, bigEnd := rfl, szPage := rfl
      cksum := rfl }
    (Indexes.nil w) hw
  rw [← hq] at hrec
  exact hrec

/-- Recovery from a file with `v` good frames: what it finds, and what the wal-index says on the
way and at its end. -/
theorem walIndexRecover_stays {aPrivate : WalHashLoc} {busy : ℕ → Bool} {pWal : Wal}
    {info : WalCkptInfo}
    (hver : WalHdrOk file → get4byte ((file.take WAL_HDRSIZE).drop 4) = WAL_MAX_VERSION)
    (hfew : WalHdrOk file → (file.length - WAL_HDRSIZE) / (walPageSize file + WAL_FRAME_HDRSIZE)
      < 2 ^ 32 - HASHTABLE_NPAGE)
    (hv : WalGood file v) (hc : c ≤ v) (hw : Indexes w (walPgnos file c)) :
    Stays (Indexes · (walPgnos file c)) (walIndexRecover file aPrivate busy pWal info) w fun x w' =>
      IsLatest {n | WalCommits file n} x.1.hdr.mxFrame ∧
        (x.1.hdr.mxFrame ≠ 0 → x.1.hdr.nPage = frameNTruncate file x.1.hdr.mxFrame ∧
          x.1.hdr.aFrameCksum = cumCksum file x.1.hdr.mxFrame) ∧
        (x.1.hdr.mxFrame ≠ 0 → x.1.hdr.OfFile file) ∧ x.1.hdr.aSalt.length = 8 ∧
        x.2.nBackfill = 0 ∧ Indexes w' (walPgnos file v) := by
  unfold walIndexRecover
  refine (recoverFile_stays hver hfew hv hc rfl rfl hw).bind
    fun r w' ⟨hfound, hw'⟩ => Stays.pure ?_
  rw [hv.commits]
  have hheader := hfound.header
  exact ⟨hfound.latest, hfound.commit,
    fun h => ⟨(hheader h).salt, (hheader h).bigEnd, (hheader h).szPage⟩, hfound.saltLength, rfl, hw'⟩

/-- The numbers of the frames of a page, as the wal-index holds them and as the file has them. -/
theorem framesOf_walPgnos {mx pgno : ℕ} (hmx : mx ≤ v) :
    framesOf (walPgnos file v) 1 mx pgno
      = {i | 0 < i ∧ i ≤ mx ∧ framePgno file i = pgno} := by
  ext i
  have hget : 0 < i → i ≤ mx → (walPgnos file v)[i - 1]? = some (framePgno file i) := by
    intro h1 h2
    rw [List.getElem?_eq_getElem (by rw [walPgnos_length]; omega)]
    simp only [walPgnos, List.getElem_map, List.getElem_range, Nat.sub_add_cancel h1]
  simp only [framesOf, Set.mem_ofPred_eq]
  constructor
  · intro h
    obtain ⟨h1, _, h2, h3⟩ := h
    rw [hget h1 h2, Option.some_inj] at h3
    exact ⟨h1, h2, h3⟩
  · intro h
    obtain ⟨h1, h2, h3⟩ := h
    exact ⟨h1, h1, h2, by rw [hget h1 h2, h3]⟩

/-- Recovery finds the last committed frame whose predecessors are all good, with its commit size and
the checksum after it, and `walFindFrame` finds the last frame of every page up to it. The file has
fewer frames than a frame number can count. -/
theorem walIndexRecover_committed (file : List UInt8) (aPrivate : WalHashLoc) (busy : ℕ → Bool)
    (pWal : Wal) (info : WalCkptInfo) (w : WalIndex)
    (hver : WalHdrOk file → get4byte ((file.take WAL_HDRSIZE).drop 4) = WAL_MAX_VERSION)
    (hfew : WalHdrOk file → (file.length - WAL_HDRSIZE) / (walPageSize file + WAL_FRAME_HDRSIZE)
      < 2 ^ 32 - HASHTABLE_NPAGE) :
    Stays (fun _ => True) (walIndexRecover file aPrivate busy pWal info) w fun x w' =>
      IsLatest {n | WalCommits file n} x.1.hdr.mxFrame ∧
        (x.1.hdr.mxFrame ≠ 0 → x.1.hdr.nPage = frameNTruncate file x.1.hdr.mxFrame ∧
          x.1.hdr.aFrameCksum = cumCksum file x.1.hdr.mxFrame) ∧
        ∀ (readLock : ℕ) (bShmUnreliable : Bool) (pgno : ℕ),
          readLock ≠ 0 ∨ bShmUnreliable = true →
            ∃ r, walFindFrame w' readLock bShmUnreliable (x.2.nBackfill + 1) x.1.hdr.mxFrame pgno
                = .ok r ∧
              IsLatest {i | 0 < i ∧ i ≤ x.1.hdr.mxFrame ∧ framePgno file i = pgno} r := by
  obtain ⟨v, hv⟩ := @exists_walGood file
  refine ((walIndexRecover_stays hver hfew hv (Nat.zero_le v) (Indexes.nil w)).weaken
    fun _ _ => trivial).post ?_
  intro x w' h
  obtain ⟨hlatest, hcommit, -, -, hback, hw'⟩ := h
  refine ⟨hlatest, hcommit, ?_⟩
  intro readLock bShmUnreliable pgno hr
  have hmx : x.1.hdr.mxFrame ≤ v := hv.latest_le hlatest
  obtain ⟨r, hfind, hl⟩ : ∃ r,
      walFindFrame w' readLock bShmUnreliable (x.2.nBackfill + 1) x.1.hdr.mxFrame pgno = .ok r ∧
        IsLatest (framesOf (walPgnos file v) (x.2.nBackfill + 1) x.1.hdr.mxFrame pgno) r :=
    walFindFrame_latest hw' (by rwa [walPgnos_length]) hr
  rw [hback, Nat.zero_add, framesOf_walPgnos hmx] at hl
  exact ⟨r, hfind, hl⟩

/-- A header for pages of 512 bytes. -/
def smallWalHdr : List UInt8 :=
  [55, 127, 6, 130, 0, 45, 226, 24, 0, 0, 2, 0, 0, 0, 0, 0, 0, 0, 0, 0, 0, 0, 0, 0,
    212, 203, 3, 19, 140, 164, 218, 184]

/-- A frame that commits an empty page 1 after this header. -/
def smallWalFrame : List UInt8 :=
  [0, 0, 0, 1, 0, 0, 0, 1, 0, 0, 0, 0, 0, 0, 0, 0, 162, 99, 122, 206, 177, 177, 60, 221]
    ++ List.replicate 512 0

/-- The header and the frame, with zeros after them. -/
def smallWal (n : ℕ) : List UInt8 := smallWalHdr ++ (smallWalFrame ++ List.replicate n 0)

theorem smallWal_hdr (n : ℕ) : (smallWal n).take WAL_HDRSIZE = smallWalHdr :=
  List.take_left' rfl

theorem smallWal_version (n : ℕ) :
    get4byte (((smallWal n).take WAL_HDRSIZE).drop 4) = WAL_MAX_VERSION := by
  rw [smallWal_hdr]
  decide +kernel

theorem smallWal_pageSize (n : ℕ) : walPageSize (smallWal n) = 512 := by
  unfold walPageSize
  rw [smallWal_hdr]
  rfl

theorem smallWalFrame_length : smallWalFrame.length = 536 := by
  rw [smallWalFrame, List.length_append, List.length_replicate]
  rfl

theorem smallWal_frame (n : ℕ) : walFrame (smallWal n) 1 = smallWalFrame := by
  unfold walFrame readFrame
  rw [smallWal_pageSize]
  have hd : (smallWal n).drop (walFrameOffset 1 512) = smallWalFrame ++ List.replicate n 0 :=
    List.drop_left' rfl
  rw [hd]
  exact List.take_left' smallWalFrame_length

theorem smallWal_length (n : ℕ) : (smallWal n).length = 568 + n := by
  rw [smallWal, List.length_append, List.length_append, smallWalFrame_length,
    List.length_replicate, smallWalHdr]
  simp only [List.length_cons, List.length_nil]
  omega

theorem smallWal_cksum (n : ℕ) : cumCksum (smallWal n) 0 = (3570074387, 2359614136) ∧
    cumCksum (smallWal n) 1 = (2724428494, 2981182685) := by
  have hbe : walBigEnd (smallWal n) = false := by
    unfold walBigEnd
    rw [smallWal_hdr]
    rfl
  have h0 : cumCksum (smallWal n) 0 = (3570074387, 2359614136) := by
    unfold cumCksum
    rw [hbe, smallWal_hdr]
    decide +kernel
  refine ⟨h0, ?_⟩
  rw [cumCksum, h0, hbe, smallWal_frame, smallWal_pageSize]
  decide +kernel

theorem smallWal_commits (n : ℕ) : WalCommits (smallWal n) 1 := by
  obtain ⟨h0, h1⟩ := smallWal_cksum n
  refine ⟨by decide, ⟨?_, ?_, ?_, ?_, ?_, ?_⟩, fun i hi hle => ?_, ?_⟩
  · rw [smallWal_length, WAL_HDRSIZE]
    omega
  · rw [smallWal_hdr]
    rfl
  · rw [smallWal_pageSize]
    rfl
  · rw [smallWal_pageSize]
    decide
  · rw [smallWal_pageSize]
  · rw [h0, smallWal_hdr]
    rfl
  · obtain rfl : i = 1 := by omega
    refine ⟨?_, ?_, ?_, ?_⟩
    · rw [smallWal_pageSize, smallWal_length, WAL_HDRSIZE, WAL_FRAME_HDRSIZE]
      omega
    · rw [framePgno, smallWal_frame]
      decide
    · rw [walSalt, smallWal_frame, smallWal_hdr]
      rfl
    · rw [h1, smallWal_frame]
      rfl
  · rw [frameNTruncate, smallWal_frame]
    decide

/-- A file with one frame. -/
theorem walIndexRecover_committed_small :
    Stays (fun _ => True) (walIndexRecover (smallWal 0) ⟨fun _ => 7, fun _ => 7⟩ (fun _ => false)
        ⟨WalIndexHdr.zero, 0, 0⟩ ⟨5, fun _ => 5, 5⟩) (fun _ => ⟨fun _ => 9, fun _ => 9⟩)
      fun x w' => IsLatest {n | WalCommits (smallWal 0) n} x.1.hdr.mxFrame ∧
        (x.1.hdr.mxFrame ≠ 0 → x.1.hdr.nPage = frameNTruncate (smallWal 0) x.1.hdr.mxFrame ∧
          x.1.hdr.aFrameCksum = cumCksum (smallWal 0) x.1.hdr.mxFrame) ∧
        ∀ (readLock : ℕ) (bShmUnreliable : Bool) (pgno : ℕ),
          readLock ≠ 0 ∨ bShmUnreliable = true →
            ∃ r, walFindFrame w' readLock bShmUnreliable (x.2.nBackfill + 1) x.1.hdr.mxFrame pgno
                = .ok r ∧
              IsLatest {i | 0 < i ∧ i ≤ x.1.hdr.mxFrame ∧ framePgno (smallWal 0) i = pgno} r :=
  @walIndexRecover_committed (smallWal 0) ⟨fun _ => 7, fun _ => 7⟩ (fun _ => false)
    ⟨WalIndexHdr.zero, 0, 0⟩ ⟨5, fun _ => 5, 5⟩ (fun _ => ⟨fun _ => 9, fun _ => 9⟩)
    (fun _ => smallWal_version 0)
    (fun _ => by rw [smallWal_pageSize, smallWal_length]; decide +kernel)

/-- Of a file whose number of frames is a multiple of `2 ^ 32` recovery reads no frame. -/
theorem recoverFile_wraps {aPrivate : WalHashLoc} {pWal : Wal}
    (hver : get4byte ((file.take WAL_HDRSIZE).drop 4) = WAL_MAX_VERSION)
    (hq : (file.length - WAL_HDRSIZE) / (walPageSize file + WAL_FRAME_HDRSIZE) % 2 ^ 32 = 0) :
    Stays (fun _ => True) (recoverFile file aPrivate pWal) w fun r _ =>
      r.pWal.hdr.mxFrame = pWal.hdr.mxFrame := by
  unfold walPageSize at hq
  unfold recoverFile
  simp only [hq, hver]
  refine Stays.ite (fun _ => Stays.pure rfl) fun _ => ?_
  refine Stays.ite (fun _ => Stays.pure rfl) fun _ => ?_
  refine Stays.ite (fun _ => Stays.pure rfl) fun _ => ?_
  refine Stays.ite (fun hne => absurd rfl hne) fun _ => ?_
  have hframes : ∀ (w : WalIndex) (f : ℕ) (r : Recovery),
      Stays (fun _ => True) (recoverFrames file 0 f r) w fun x _ => x = (f, r) := fun _ _ _ =>
    Stays.pure rfl
  rw [show walFramePage 0 + 1 = 1 from rfl]
  unfold recoverBlocks
  simp only [Nat.zero_min, Nat.zero_add, show 1 - (1 + iZero 0) = 0 from rfl]
  refine (onPrivate_stays (hframes _ _ _)).bind fun x w' ⟨_, _, hx, _⟩ => ?_
  obtain ⟨x, b⟩ := x
  simp only at hx
  subst hx
  refine (store_stays trivial).bind fun _ _ _ => ?_
  exact Stays.ite (fun _ => Stays.pure rfl) fun _ => Stays.pure rfl

/-- Recovery keeps the number of frames in 32 bits, and misses the commit in a file of `2 ^ 32`
frames. -/
theorem walIndexRecover_wraps : ¬ ∀ (file : List UInt8) (aPrivate : WalHashLoc) (busy : ℕ → Bool)
    (pWal : Wal) (info : WalCkptInfo) (w : WalIndex),
    (WalHdrOk file → get4byte ((file.take WAL_HDRSIZE).drop 4) = WAL_MAX_VERSION) →
      Stays (fun _ => True) (walIndexRecover file aPrivate busy pWal info) w fun x _ =>
        IsLatest {n | WalCommits file n} x.1.hdr.mxFrame := by
  intro h
  obtain ⟨n, hn⟩ : ∃ n, n = (2 ^ 32 - 1) * 536 := ⟨_, rfl⟩
  have hrun := h (smallWal n) ⟨fun _ => 0, fun _ => 0⟩ (fun _ => false) ⟨WalIndexHdr.zero, 0, 0⟩
    ⟨0, fun _ => 0, 0⟩ (fun _ => ⟨fun _ => 0, fun _ => 0⟩) (fun _ => smallWal_version n) []
  have hq : ((smallWal n).length - WAL_HDRSIZE) / (walPageSize (smallWal n) + WAL_FRAME_HDRSIZE)
      % 2 ^ 32 = 0 := by
    rw [smallWal_length, smallWal_pageSize, hn]
    decide +kernel
  have hzero : Stays (fun _ => True) (walIndexRecover (smallWal n) ⟨fun _ => 0, fun _ => 0⟩
      (fun _ => false) ⟨WalIndexHdr.zero, 0, 0⟩ ⟨0, fun _ => 0, 0⟩)
      (fun _ => ⟨fun _ => 0, fun _ => 0⟩) fun x _ => x.1.hdr.mxFrame = 0 := by
    unfold walIndexRecover
    exact (recoverFile_wraps (smallWal_version n) hq).bind
      fun r w' hr => Stays.pure hr
  have hboth := hrun.and (hzero [])
  unfold wp at hboth
  split at hboth
  · obtain ⟨⟨hl, -⟩, h0, -⟩ := hboth
    rw [h0] at hl
    have hempty := hl.eq_empty fun hc => absurd hc.pos (by omega)
    exact Set.notMem_empty 1 (hempty ▸ smallWal_commits n)
  · exact hboth.1

end Recover

end Btreelite
