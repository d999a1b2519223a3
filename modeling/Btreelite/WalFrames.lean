import Btreelite.WalWritten

/-!
# Writing frames

What `walFrames` does to the log file and to the handle, statement by statement. Whatever fails, the
shared header stays and with it the frames that it counts.
-/

namespace Btreelite

open Prog ByteFile LogM

section Calls

variable {s s' s'' : LogState} {aData : List UInt8} {off : ℕ}

/-- Nothing but the file and the failures to come differs. -/
structure LogState.SameMem (s s' : LogState) : Prop where
  apWiData : s'.apWiData = s.apWiData
  live : s'.live = s.live
  nBackfill : s'.nBackfill = s.nBackfill
  pWal : s'.pWal = s.pWal

theorem LogState.SameMem.trans (h : s.SameMem s') (h' : s'.SameMem s'') : s.SameMem s'' :=
  ⟨h'.1.trans h.1, h'.2.trans h.2, h'.3.trans h.3, h'.4.trans h.4⟩

theorem nextIo_wp {Q : Option (Fault × ℕ) → LogState → Prop} {E : Rc → LogState → Prop}
    (h : ∀ x io, Q x { s with io }) : wp nextIo Q E s := h _ _

theorem sqlite3OsWrite_wp : wp (sqlite3OsWrite aData off)
    (fun _ s' => s.SameMem s' ∧ s'.content = pwrite 0 s.content off aData)
    (fun _ s' => s.SameMem s' ∧ ∃ n, s'.content = pwrite 0 s.content off (aData.take n)) s := by
  unfold sqlite3OsWrite
  refine wp_bind.2 (nextIo_wp fun x io => ?_)
  cases x with
  | none => exact ⟨⟨rfl, rfl, rfl, rfl⟩, OsFile.add_content ..⟩
  | some x => exact ⟨⟨rfl, rfl, rfl, rfl⟩, x.2, OsFile.add_content ..⟩

/-- What a call that only syncs, reads or allocates leaves. -/
abbrev LogState.Keeps {α : Type} (s : LogState) (m : LogM α) (Q : α → Prop) : Prop :=
  wp m (fun a s' => s.SameMem s' ∧ s'.content = s.content ∧ Q a)
    (fun _ s' => s.SameMem s' ∧ s'.content = s.content) s

theorem sqlite3OsSync_wp {flags : ℕ} : s.Keeps (sqlite3OsSync flags) fun _ => True := by
  unfold sqlite3OsSync
  refine wp_ite.2 ⟨fun _ => ⟨⟨rfl, rfl, rfl, rfl⟩, rfl, trivial⟩, fun _ => ?_⟩
  refine wp_bind.2 (nextIo_wp fun x io => ?_)
  cases x with
  | none => exact ⟨⟨rfl, rfl, rfl, rfl⟩, rfl, trivial⟩
  | some x => exact ⟨⟨rfl, rfl, rfl, rfl⟩, rfl⟩

theorem syncWhen_wp {bSync : Bool} {flags : ℕ} : s.Keeps (syncWhen bSync flags) fun _ => True :=
  wp_ite.2 ⟨fun _ => sqlite3OsSync_wp, fun _ => wp_pure.2 ⟨⟨rfl, rfl, rfl, rfl⟩, rfl, trivial⟩⟩

theorem sqlite3OsRead_wp {nByte : ℕ} : s.Keeps (sqlite3OsRead nByte off)
    fun aBuf => aBuf = pread s.content off nByte := by
  unfold sqlite3OsRead
  refine wp_bind.2 (nextIo_wp fun x io => ?_)
  cases x with
  | none =>
    refine wp_bind.2 (wp_get.2 (wp_ite.2 ⟨fun _ => ⟨⟨rfl, rfl, rfl, rfl⟩, rfl, rfl⟩, fun _ => ⟨⟨rfl, rfl, rfl, rfl⟩, rfl⟩⟩))
  | some x => exact ⟨⟨rfl, rfl, rfl, rfl⟩, rfl⟩

theorem sqlite3_malloc_wp : s.Keeps sqlite3_malloc fun _ => True := by
  unfold sqlite3_malloc
  refine wp_bind.2 (nextIo_wp fun x io => ?_)
  cases x with
  | none => exact ⟨⟨rfl, rfl, rfl, rfl⟩, rfl, trivial⟩
  | some x => exact ⟨⟨rfl, rfl, rfl, rfl⟩, rfl⟩

theorem walWriteToLog_wp {iSyncPoint syncFlags : ℕ} (hoff : off ≤ s.content.length) :
    wp (walWriteToLog iSyncPoint syncFlags aData off)
      (fun _ s' => s.SameMem s' ∧ s'.content = pwrite 0 s.content off aData)
      (fun _ s' => s.SameMem s' ∧ ∃ n, s'.content = pwrite 0 s.content off (aData.take n)) s := by
  unfold walWriteToLog
  refine wp_ite.2 ⟨fun hin => ?_, fun _ => sqlite3OsWrite_wp⟩
  simp only []
  obtain ⟨k, hk⟩ : ∃ k, k = iSyncPoint - off := ⟨_, rfl⟩
  rw [← hk]
  have hkl : (aData.take k).length = k := by
    rw [List.length_take]
    omega
  refine wp_bind.2 (sqlite3OsWrite_wp.mono (fun _ s₁ ⟨hm₁, hc₁⟩ => ?_) fun _ s₁ ⟨hm₁, n, hc₁⟩ =>
    ⟨hm₁, min n k, by rw [hc₁, List.take_take]⟩)
  refine wp_bind.2 (sqlite3OsSync_wp.mono (fun _ s₂ ⟨hm₂, hc₂, _⟩ => ?_) fun _ s₂ ⟨hm₂, hc₂⟩ =>
    ⟨hm₁.trans hm₂, k, hc₂.trans hc₁⟩)
  have hjoin : ∀ bs, pwrite 0 s₂.content (off + k) bs
      = pwrite 0 s.content off (aData.take k ++ bs) := by
    intro bs
    have := @pwrite_append _ 0 s.content (aData.take k) bs off hoff
    rwa [hkl, ← hc₁, ← hc₂] at this
  refine wp_ite.2 ⟨fun h0 => ⟨hm₁.trans hm₂, ?_⟩, fun _ => ?_⟩
  · rw [hc₂, hc₁, List.take_of_length_le (by omega)]
  · refine sqlite3OsWrite_wp.mono (fun _ s₃ ⟨hm₃, hc₃⟩ => ?_) fun _ s₃ ⟨hm₃, n, hc₃⟩ => ?_
    · refine ⟨(hm₁.trans hm₂).trans hm₃, ?_⟩
      rw [hc₃, hjoin, List.take_append_drop]
    · refine ⟨(hm₁.trans hm₂).trans hm₃, k + n, ?_⟩
      rw [hc₃, hjoin, List.take_add]

end Calls

/-! ## What every statement keeps -/

/-- The shared memory is the same, the handle differs in its checksum and `iReCksum`, and the file
behind the committed frames. -/
structure LogState.Writes (s s' : LogState) : Prop where
  apWiData : s'.apWiData = s.apWiData
  live : s'.live = s.live
  nBackfill : s'.nBackfill = s.nBackfill
  pWal : ∃ c k, s'.pWal
    = { s.pWal with iReCksum := k, hdr := { s.pWal.hdr with aFrameCksum := c } }
  frames : SameFrames s.live.mxFrame s.content s'.content

namespace LogState.Writes

variable {s s' s'' : LogState}

theorem refl : s.Writes s := ⟨rfl, rfl, rfl, ⟨_, _, rfl⟩, .refl⟩

theorem trans (h : s.Writes s') (h' : s'.Writes s'') : s.Writes s'' := by
  obtain ⟨c, k, hp⟩ := h.pWal
  obtain ⟨c', k', hp'⟩ := h'.pWal
  have hf := h'.frames
  rw [h.live] at hf
  refine ⟨h'.1.trans h.1, h'.2.trans h.2, h'.3.trans h.3, ⟨c', k', ?_⟩, h.frames.trans hf⟩
  rw [hp', hp]

theorem mxFrame (h : s.Writes s') : s'.pWal.hdr.mxFrame = s.pWal.hdr.mxFrame := by
  obtain ⟨c, k, hp⟩ := h.pWal
  rw [hp]

theorem szPage (h : s.Writes s') : s'.pWal.szPage = s.pWal.szPage := by
  obtain ⟨c, k, hp⟩ := h.pWal
  rw [hp]

theorem of_sameMem (h : s.SameMem s') (hc : s'.content = s.content) : s.Writes s' := by
  refine ⟨h.1, h.2, h.3, ⟨s.pWal.hdr.aFrameCksum, s.pWal.iReCksum, h.4⟩, ?_⟩
  rw [hc]
  exact .refl

end LogState.Writes

/-! ## The frames of one call -/

/-- What a call of `walFrames` writes and does not find in the log it appends: the pages it was
given, those it appended, and the log before and after it. The first `m` frames are indexed. -/
inductive Wrote (m : ℕ) : List PgHdr → List PgHdr → List PgHdr → List PgHdr → Prop
  | nil (log : List PgHdr) : Wrote m [] [] log log
  | append {p : PgHdr} {pList pages log log' : List PgHdr}
      (h : Wrote m pList pages (log ++ [p]) log') : Wrote m (p :: pList) (p :: pages) log log'
  | overwrite {p : PgHdr} {pList pages log log' : List PgHdr} {j : ℕ} (hj : j < m)
      (hp : (log.map PgHdr.pgno)[j]? = some p.pgno)
      (hlast : ∀ i, j < i → i < m → (log.map PgHdr.pgno)[i]? ≠ some p.pgno)
      (h : Wrote m pList pages (log.set j p) log') : Wrote m (p :: pList) pages log log'

theorem map_set_pgno {log : List PgHdr} {p : PgHdr} {j : ℕ}
    (hp : (log.map PgHdr.pgno)[j]? = some p.pgno) :
    (log.set j p).map PgHdr.pgno = log.map PgHdr.pgno := by
  rw [List.map_set]
  refine List.ext_getElem? fun i => ?_
  rw [List.getElem?_set]
  split_ifs with hi hlt
  · rw [← hi, hp]
  · exact absurd (List.getElem?_eq_some_iff.1 hp).1 hlt
  · rfl

theorem Wrote.pgnos {m : ℕ} {pList pages log log' : List PgHdr}
    (h : Wrote m pList pages log log') :
    log'.map PgHdr.pgno = log.map PgHdr.pgno ++ pages.map PgHdr.pgno := by
  induction h with
  | nil log => simp
  | append h ih => simp [ih]
  | overwrite hj hp hlast h ih => rw [ih, map_set_pgno hp]

theorem Wrote.length {m : ℕ} {pList pages log log' : List PgHdr}
    (h : Wrote m pList pages log log') : log'.length = log.length + pages.length := by
  have := congrArg List.length h.pgnos
  simpa only [List.length_map, List.length_append] using this

/-! ### The pages of a log -/

/-- The content of the last frame of a page. -/
def lastPage (log : List PgHdr) (pgno : ℕ) : Option (List UInt8) :=
  log.foldl (fun d p => if p.pgno = pgno then some p.pData else d) none

section LastPage

variable {log log' pages pList : List PgHdr} {p : PgHdr} {m pgno : ℕ}

@[simp] theorem lastPage_concat :
    lastPage (log ++ [p]) pgno = if p.pgno = pgno then some p.pData else lastPage log pgno := by
  simp [lastPage]

theorem lastPage_append_congr (h : lastPage log pgno = lastPage log' pgno) :
    lastPage (log ++ pages) pgno = lastPage (log' ++ pages) pgno := by
  unfold lastPage at h ⊢
  rw [List.foldl_append, List.foldl_append, h]

theorem lastPage_append_of_ne (h : ∀ p ∈ pages, p.pgno ≠ pgno) :
    lastPage (log ++ pages) pgno = lastPage log pgno := by
  induction pages using List.reverseRecOn with
  | nil => rw [List.append_nil]
  | append_singleton pages p ih =>
    rw [← List.append_assoc, lastPage_concat, if_neg (h p (by simp)), ih fun q hq => h q (by simp [hq])]

/-- Frames that repeat the last one. -/
theorem lastPage_append_replicate (hp : lastPage log p.pgno = some p.pData) (h : ∀ q ∈ pages, q = p) :
    lastPage (log ++ pages) pgno = lastPage log pgno := by
  induction pages using List.reverseRecOn with
  | nil => rw [List.append_nil]
  | append_singleton pages q ih =>
    have ih := ih fun q hq => h q (by simp [hq])
    rw [← List.append_assoc, lastPage_concat, ih, h q (by simp)]
    split_ifs with he
    · rw [← he, hp]
    · rfl

/-- Overwriting the last frame of a page is like appending one. -/
theorem lastPage_set {j : ℕ} (hp : (log.map PgHdr.pgno)[j]? = some p.pgno)
    (hlast : ∀ i, j < i → (log.map PgHdr.pgno)[i]? ≠ some p.pgno) :
    lastPage (log.set j p) pgno = lastPage (log ++ [p]) pgno := by
  rw [List.getElem?_map, Option.map_eq_some_iff] at hp
  obtain ⟨x, hx, hxp⟩ := hp
  obtain ⟨hj, hxj⟩ := List.getElem?_eq_some_iff.1 hx
  have hne : ∀ q ∈ log.drop (j + 1), q.pgno ≠ p.pgno := by
    intro q hq he
    obtain ⟨i, hi⟩ := List.mem_iff_getElem?.1 hq
    rw [List.getElem?_drop] at hi
    refine hlast (j + 1 + i) (by omega) ?_
    rw [List.getElem?_map, hi, Option.map_some, he]
  have hlog : log = (log.take j ++ [x]) ++ log.drop (j + 1) := by
    rw [List.append_assoc, List.singleton_append, ← hxj, List.getElem_cons_drop, List.take_append_drop]
  have hset : log.set j p = (log.take j ++ [p]) ++ log.drop (j + 1) := by
    rw [List.set_eq_take_append_cons_drop, if_pos hj, List.append_assoc, List.singleton_append]
  rw [hset, lastPage_concat]
  split_ifs with he
  · rw [lastPage_append_of_ne (by rw [← he]; exact hne), lastPage_concat, if_pos he]
  · conv_rhs => rw [hlog]
    refine lastPage_append_congr ?_
    rw [lastPage_concat, lastPage_concat, if_neg he, hxp, if_neg he]

/-- The appended frames are the end of the log, and the others are as they were from frame `m` on. -/
theorem Wrote.eq_append {m : ℕ} (h : Wrote m pList pages log log') (hm : m ≤ log.length) :
    ∃ log₀, log' = log₀ ++ log.drop m ++ pages ∧ log₀.length = m := by
  induction h with
  | nil log => exact ⟨log.take m, by rw [List.append_nil, List.take_append_drop], List.length_take_of_le hm⟩
  | append h ih =>
    obtain ⟨log₀, hlog, hlen⟩ := ih (by rw [List.length_append]; omega)
    refine ⟨log₀, ?_, hlen⟩
    rw [hlog, List.drop_append_of_le_length hm]
    simp only [List.append_assoc, List.singleton_append]
  | overwrite hj hp hlast h ih =>
    obtain ⟨log₀, hlog, hlen⟩ := ih (by rwa [List.length_set])
    exact ⟨log₀, by rw [hlog, List.drop_set_of_lt hj], hlen⟩

/-- The last page of a call that appends it is the last of the log. -/
theorem Wrote.lastPage_getLast {m : ℕ} (h : Wrote m pList pages log log') (hm : m ≤ log.length)
    (hp : pages.getLast? = some p) : lastPage log' p.pgno = some p.pData := by
  obtain ⟨log₀, hlog, -⟩ := h.eq_append hm
  obtain ⟨l, rfl⟩ := List.getLast?_eq_some_iff.1 hp
  rw [hlog, ← List.append_assoc, lastPage_concat, if_pos rfl]

theorem Wrote.lastPage (h : Wrote m pList pages log log') (hd : (pList.map PgHdr.pgno).Nodup)
    (hnew : ∀ p ∈ pList, ∀ i, m ≤ i → (log.map PgHdr.pgno)[i]? ≠ some p.pgno) :
    lastPage log' pgno = lastPage (log ++ pList) pgno := by
  induction h with
  | nil log => rw [List.append_nil]
  | @append p pList pages log log' h ih =>
    rw [List.map_cons, List.nodup_cons] at hd
    rw [ih hd.2 fun q hq i hi he => ?_, List.append_assoc, List.singleton_append]
    rw [List.map_append, List.getElem?_append] at he
    split_ifs at he with hlt
    · exact hnew q (List.mem_cons_of_mem p hq) i hi he
    · rw [List.map_singleton, List.getElem?_singleton] at he
      split_ifs at he with h0
      exact hd.1 (Option.some_inj.1 he ▸ List.mem_map_of_mem hq)
  | @overwrite p pList pages log log' j hj hp hlast h ih =>
    rw [List.map_cons, List.nodup_cons] at hd
    have hset := map_set_pgno hp
    rw [ih hd.2 fun q hq i hi => by
      rw [hset]
      exact hnew q (List.mem_cons_of_mem p hq) i hi]
    rw [lastPage_append_congr (lastPage_set hp fun i hi => ?_), List.append_assoc, List.singleton_append]
    rcases Nat.lt_or_ge i m with him | him
    · exact hlast i hi him
    · exact hnew p (List.mem_cons_self ..) i him

end LastPage

/-- A handle in the middle of `walFrames`: the frames of its file, of which those that its header
counts are indexed. -/
structure LogState.Open (cfg : LogCfg) (s : LogState) (log : List PgHdr) : Prop where
  written : Written s.content s.pWal log
  szPage : s.pWal.szPage = cfg.szPage
  live : s.live.mxFrame ≤ s.pWal.hdr.mxFrame
  mxFrame : s.pWal.hdr.mxFrame ≤ log.length
  iReCksum : s.pWal.iReCksum ≠ 0 →
    s.live.mxFrame < s.pWal.iReCksum ∧ s.pWal.iReCksum ≤ s.pWal.hdr.mxFrame
  index : Indexes s.apWiData ((log.map PgHdr.pgno).take s.pWal.hdr.mxFrame)

section Frames

variable {cfg : LogCfg} {s s₁ s' : LogState} {log : List PgHdr} {p : PgHdr} {nTruncate off : ℕ}

theorem LogState.Open.pageSize (h : s.Open cfg log) : walPageSize s.content = cfg.szPage :=
  h.written.header.pageSize.trans h.szPage

/-- The handle changed, and then the file behind the committed frames. -/
theorem LogState.Writes.of_write {c : ℕ × ℕ} {k : ℕ} {bytes : List UInt8}
    (hp : s'.pWal = { s.pWal with iReCksum := k, hdr := { s.pWal.hdr with aFrameCksum := c } })
    (hw : s'.apWiData = s.apWiData) (hl : s'.live = s.live) (hb : s'.nBackfill = s.nBackfill)
    (hc : s'.content = pwrite 0 s.content off bytes)
    (hoff : walFrameOffset (s.live.mxFrame + 1) (walPageSize s.content) ≤ off)
    (hlen : off ≤ s.content.length) : s.Writes s' := by
  refine ⟨hw, hl, hb, ⟨c, k, hp⟩, ?_⟩
  rw [hc]
  exact SameFrames.write hoff hlen

theorem walWriteOneFrame_wp {iSyncPoint syncFlags : ℕ} (hw : Written s.content s.pWal log)
    (hp : p.Fits (walPageSize s.content)) (hn : nTruncate < 2 ^ 32)
    (hl : s.live.mxFrame ≤ log.length)
    (hoff : off = walFrameOffset (log.length + 1) (walPageSize s.content)) :
    wp (walWriteOneFrame iSyncPoint syncFlags p nTruncate off)
      (fun _ s' => s.Writes s' ∧ Written s'.content s'.pWal (log ++ [p]) ∧
        SameFrames log.length s.content s'.content ∧
        frameNTruncate s'.content (log.length + 1) = nTruncate ∧
        s'.pWal.iReCksum = s.pWal.iReCksum)
      (fun _ s' => s.Writes s') s := by
  subst hoff
  obtain ⟨e, he⟩ : ∃ e, e = walEncodeFrame s.pWal p.pgno nTruncate p.pData := ⟨_, rfl⟩
  obtain ⟨c, hc⟩ := @walEncodeFrame_fst s.pWal nTruncate p.pgno p.pData
  rw [← he] at hc
  have hel : e.2.length = WAL_FRAME_HDRSIZE := by
    rw [he]
    exact walEncodeFrame_length hw.header.salt_length _ _
  have hwrites : ∀ (s' : LogState) (bytes : List UInt8),
      ({ s with pWal := e.1 } : LogState).SameMem s' →
      s'.content = pwrite 0 s.content (walFrameOffset (log.length + 1) (walPageSize s.content)) bytes →
      s.Writes s' := by
    intro s' bytes hm hc'
    exact .of_write (k := s.pWal.iReCksum) (hm.pWal.trans hc) hm.apWiData hm.live hm.nBackfill hc'
      (walFrameOffset_mono (by omega)) hw.cover
  unfold walWriteOneFrame encodeFrame
  refine wp_bind.2 (wp_bind.2 (wp_get.2 ?_))
  simp only [← he]
  refine wp_bind.2 (wp_set.2 (wp_pure.2 ?_))
  refine wp_bind.2 ((@walWriteToLog_wp { s with pWal := e.1 } e.2 _ _ _ hw.cover).mono
    (fun _ s₁ ⟨hm₁, hc₁⟩ => ?_) fun _ s₁ ⟨hm₁, n, hc₁⟩ => hwrites s₁ _ hm₁ hc₁)
  have hc₁ : s₁.content = pwrite 0 s.content
    (walFrameOffset (log.length + 1) (walPageSize s.content)) e.2 := hc₁
  have hjoin : ∀ bs, pwrite 0 s₁.content
      (walFrameOffset (log.length + 1) (walPageSize s.content) + WAL_FRAME_HDRSIZE) bs
      = pwrite 0 s.content (walFrameOffset (log.length + 1) (walPageSize s.content)) (e.2 ++ bs) := by
    intro bs
    rw [hc₁, ← hel]
    exact pwrite_append hw.cover
  have hlen₁ : walFrameOffset (log.length + 1) (walPageSize s.content) + WAL_FRAME_HDRSIZE
      ≤ s₁.content.length := by
    rw [hc₁, pwrite_length hw.cover, hel]
    exact Nat.le_max_right ..
  refine (walWriteToLog_wp hlen₁).mono (fun _ s₂ ⟨hm₂, hc₂⟩ => ?_) fun _ s₂ ⟨hm₂, n, hc₂⟩ =>
    hwrites s₂ _ (hm₁.trans hm₂) (hc₂.trans (hjoin _))
  have hc₂' := hc₂.trans (hjoin _)
  have hm := hm₁.trans hm₂
  obtain ⟨hwr, hsame, hnt⟩ := hw.append hp hn he hc₂'
  have hpw : s₂.pWal = e.1 := hm.pWal
  refine ⟨hwrites s₂ _ hm hc₂', ?_, hsame, hnt, ?_⟩
  · rwa [hpw]
  · rw [hpw, he, walEncodeFrame_iReCksum]

/-- A frame that `findWrite` chooses is one of the transaction, and the last of its page. -/
theorem findWrite_wp {iFirst pgno : ℕ} {isLast isCommit : Bool}
    (hi : Indexes s.apWiData ((log.map PgHdr.pgno).take s.pWal.hdr.mxFrame))
    (hm : s.pWal.hdr.mxFrame ≤ log.length) :
    wp (findWrite iFirst pgno isLast isCommit)
      (fun iWrite s' => s' = s ∧ (iWrite ≠ 0 → (isLast = false ∨ isCommit = false) ∧
        iFirst ≠ 0 ∧ iFirst ≤ iWrite ∧ ∃ j, iWrite = j + 1 ∧ j < s.pWal.hdr.mxFrame ∧
          (log.map PgHdr.pgno)[j]? = some pgno ∧
          ∀ i, j < i → i < s.pWal.hdr.mxFrame → (log.map PgHdr.pgno)[i]? ≠ some pgno))
      (fun _ _ => False) s := by
  unfold findWrite
  refine wp_ite.2 ⟨fun hc => wp_bind.2 (wp_get.2 ?_), fun _ => ⟨rfl, fun h => absurd rfl h⟩⟩
  have hlen : ((log.map PgHdr.pgno).take s.pWal.hdr.mxFrame).length = s.pWal.hdr.mxFrame := by
    rw [List.length_take, List.length_map]
    omega
  split
  · rename_i iWrite hfind
    refine ⟨rfl, fun h0 => ?_⟩
    have hle : iFirst ≤ iWrite := by
      by_contra hlt
      exact h0 (if_neg hlt)
    rw [if_pos hle] at h0
    refine ⟨hc.2, hc.1, by rwa [if_pos hle], ?_⟩
    rw [if_pos hle]
    have hr : s.pWal.readLock.natAbs ≠ 0 := by
      intro hr
      unfold walFindFrame at hfind
      rw [if_pos (.inr ⟨hr, rfl⟩)] at hfind
      injection hfind with hfind
      exact h0 hfind.symm
    obtain ⟨r, hr', hl⟩ : ∃ r, walFindFrame s.apWiData s.pWal.readLock.natAbs false s.pWal.minFrame
        s.pWal.hdr.mxFrame pgno = .ok r ∧
          IsLatest (framesOf ((log.map PgHdr.pgno).take s.pWal.hdr.mxFrame) s.pWal.minFrame
            s.pWal.hdr.mxFrame pgno) r := walFindFrame_latest hi hlen.ge (.inl hr)
    rw [hfind] at hr'
    injection hr' with hr'
    subst hr'
    rw [framesOf_take le_rfl] at hl
    rcases hl with ⟨⟨hpos, hmin, hmx, hget⟩, hup⟩ | ⟨-, h0'⟩
    · refine ⟨iWrite - 1, by omega, by omega, hget, fun i hj hi' hget' => ?_⟩
      have := hup (show i + 1 ∈ framesOf _ _ _ _ from
        ⟨Nat.succ_pos i, by omega, by omega, by rwa [Nat.add_sub_cancel]⟩)
      omega
    · exact absurd h0' h0
  · exact ⟨rfl, fun h => absurd rfl h⟩

/-- The frames of the header that were good before are as they were, up to the first that has been
overwritten. -/
def LogState.KeepsBefore (s s' : LogState) : Prop :=
  ∀ k ≤ s.pWal.hdr.mxFrame, (s'.pWal.iReCksum = 0 ∨ k < s'.pWal.iReCksum) →
    (s.pWal.iReCksum = 0 ∨ k < s.pWal.iReCksum) ∧ SameFrames k s.content s'.content

theorem LogState.KeepsBefore.trans (h : s.KeepsBefore s₁) (h' : s₁.KeepsBefore s')
    (hm : s₁.pWal.hdr.mxFrame = s.pWal.hdr.mxFrame) : s.KeepsBefore s' := by
  intro k hk hre
  obtain ⟨hre₁, hsame'⟩ := h' k (by omega) hre
  obtain ⟨hre₀, hsame⟩ := h k hk hre₁
  exact ⟨hre₀, hsame.trans hsame'⟩

/-- After an overwrite. -/
theorem LogState.Open.overwrite (h : s.Open cfg log) {j : ℕ} (hj : j < s.pWal.hdr.mxFrame)
    (hl : s.live.mxFrame ≤ j) (hpg : (log.map PgHdr.pgno)[j]? = some p.pgno)
    (hp : p.pData.length = cfg.szPage)
    (hm : ({ s with pWal := s.pWal.overwrite (j + 1) } : LogState).SameMem s')
    (hc : s'.content = pwrite 0 s.content
      (walFrameOffset (j + 1) cfg.szPage + WAL_FRAME_HDRSIZE) p.pData) :
    s'.Open cfg (log.set j p) ∧ s.KeepsBefore s' := by
  have hps := h.pageSize
  rw [← hps] at hc hp
  have hmx := h.mxFrame
  obtain ⟨hw, hsame⟩ := h.written.overwrite (by omega) hpg hp hc
  have hpw : s'.pWal = s.pWal.overwrite (j + 1) := hm.pWal
  have hmx' : s'.pWal.hdr.mxFrame = s.pWal.hdr.mxFrame := by
    rw [hpw, WalHandle.overwrite]
    split_ifs <;> rfl
  have hlive : s'.live = s.live := hm.live
  have hw' : s'.apWiData = s.apWiData := hm.apWiData
  refine ⟨⟨by rwa [hpw], ?_, ?_, ?_, fun h0 => ?_, ?_⟩, fun k hk hre => ?_⟩
  · rw [hpw, ← h.szPage, WalHandle.overwrite]
    split_ifs <;> rfl
  · rw [hlive, hmx']
    exact h.live
  · rw [hmx', List.length_set]
    exact hmx
  · rw [hlive, hmx', hpw, WalHandle.overwrite]
    split_ifs with hlt
    · exact ⟨by simp only []; omega, by simp only []; omega⟩
    · exact h.iReCksum (by omega)
  · rw [hw', hmx', map_set_pgno hpg]
    exact h.index
  · rw [hpw, WalHandle.overwrite] at hre
    split_ifs at hre with hlt
    · simp only [false_or] at hre
      exact ⟨by omega, hsame.mono (by omega)⟩
    · exact ⟨hre, hsame.mono (by omega)⟩

/-- After a frame was appended. -/
theorem LogState.Open.append (h : s.Open cfg log) (hwr : s.Writes s')
    (hw : Written s'.content s'.pWal (log ++ [p])) (hre : s'.pWal.iReCksum = s.pWal.iReCksum) :
    s'.Open cfg (log ++ [p]) := by
  have hmx := h.mxFrame
  refine ⟨hw, hwr.szPage.trans h.szPage, ?_, ?_, ?_, ?_⟩
  · rw [hwr.live, hwr.mxFrame]
    exact h.live
  · rw [hwr.mxFrame, List.length_append]
    omega
  · rw [hwr.live, hwr.mxFrame, hre]
    exact h.iReCksum
  · rw [hwr.apWiData, hwr.mxFrame, List.map_append, List.take_append_of_le_length]
    · exact h.index
    · rwa [List.length_map]

/-- The loop over the pages. -/
theorem writeFrames_wp {iFirst : ℕ} {isCommit : Bool} {sync_flags : ℕ} (hn : nTruncate < 2 ^ 32) :
    ∀ (pList : List PgHdr) (log : List PgHdr) (s : LogState), s.Open cfg log →
      (iFirst ≠ 0 → iFirst = s.live.mxFrame + 1) → (∀ p ∈ pList, p.Fits cfg.szPage) →
      wp (writeFrames cfg iFirst nTruncate isCommit sync_flags pList log.length)
        (fun pages s' => s.Writes s' ∧ s.KeepsBefore s' ∧ (pList = [] → s' = s) ∧
          ∃ log', s'.Open cfg log' ∧
          Wrote s.pWal.hdr.mxFrame pList pages log log' ∧
          (isCommit = true → pList ≠ [] → pages.getLast? = pList.getLast? ∧
            frameNTruncate s'.content log'.length = nTruncate))
        (fun _ s' => s.Writes s') s
  | [], log, s, hs, _, _ => 
    ⟨.refl, fun _ _ h => ⟨h, .refl⟩, fun _ => rfl, log, hs, .nil log, fun _ h => absurd rfl h⟩
  | p :: pList, log, s, hs, hf, hp => by
    have hps := hs.pageSize
    have hpp := hp p (List.mem_cons_self ..)
    have hrest : ∀ q ∈ pList, q.Fits cfg.szPage := fun q hq => hp q (List.mem_cons_of_mem p hq)
    have hmx := hs.mxFrame
    have hlive := hs.live
    unfold writeFrames
    refine wp_bind.2 ((findWrite_wp hs.index hs.mxFrame).mono (fun iWrite s₀ h => ?_)
      fun _ _ h => h.elim)
    obtain ⟨rfl, hfind⟩ := h
    refine wp_ite.2 ⟨fun h0 => ?_, fun _ => ?_⟩
    · obtain ⟨hmore, hne, hle, j, rfl, hj, hpg, hlast⟩ := hfind h0
      have hlj : s₀.live.mxFrame ≤ j := by
        have := hf hne
        omega
      have hoff : walFrameOffset (j + 1) cfg.szPage + WAL_FRAME_HDRSIZE ≤ s₀.content.length := by
        have h1 := @walFrameOffset_succ (j + 1) cfg.szPage (Nat.succ_pos j)
        have h2 := @walFrameOffset_mono (j + 1 + 1) (log.length + 1) cfg.szPage (by omega)
        have h3 := hs.written.cover
        rw [hps] at h3
        omega
      have hwr : ∀ (s₁ : LogState) (bytes : List UInt8),
          ({ s₀ with pWal := s₀.pWal.overwrite (j + 1) } : LogState).SameMem s₁ →
          s₁.content = pwrite 0 s₀.content
            (walFrameOffset (j + 1) cfg.szPage + WAL_FRAME_HDRSIZE) bytes → s₀.Writes s₁ := by
        intro s₁ bytes hm hc
        obtain ⟨k, hk⟩ : ∃ k, s₀.pWal.overwrite (j + 1)
            = { s₀.pWal with iReCksum := k, hdr := { s₀.pWal.hdr with
                aFrameCksum := s₀.pWal.hdr.aFrameCksum } } := by
          unfold WalHandle.overwrite
          split_ifs
          · exact ⟨_, rfl⟩
          · exact ⟨_, rfl⟩
        refine .of_write (hm.pWal.trans hk) hm.apWiData hm.live hm.nBackfill hc ?_ hoff
        rw [hps]
        exact (walFrameOffset_mono (by omega)).trans (Nat.le_add_right ..)
      refine wp_bind.2 (wp_modify.2 (wp_bind.2 ?_))
      refine (@sqlite3OsWrite_wp { s₀ with pWal := s₀.pWal.overwrite (j + 1) } _ _).mono
        (fun _ s₁ ⟨hm₁, hc₁⟩ => ?_) fun _ s₁ ⟨hm₁, n, hc₁⟩ => hwr s₁ _ hm₁ hc₁
      have hw₁ := hwr s₁ _ hm₁ hc₁
      obtain ⟨hs₁, hk₁⟩ := hs.overwrite hj hlj hpg hpp.size hm₁ hc₁
      have hmx₁ := hw₁.mxFrame
      have hrec := @writeFrames_wp iFirst isCommit sync_flags hn pList (log.set j p) s₁ hs₁
        (by rwa [hw₁.live]) hrest
      rw [List.length_set] at hrec
      refine hrec.mono (fun pages s₂ ⟨hw₂, hk₂, _, log', hs₂, hwrote, hcommit⟩ => ?_)
        fun _ s₂ hw₂ => hw₁.trans hw₂
      rw [hmx₁] at hwrote
      refine ⟨hw₁.trans hw₂, hk₁.trans hk₂ hmx₁, fun h => absurd h (List.cons_ne_nil _ _), log', hs₂,
        .overwrite hj hpg hlast hwrote, fun hc _ => ?_⟩
      have hne' : pList ≠ [] := by
        intro he
        rcases hmore with hmore | hmore
        · simp [he] at hmore
        · simp [hc] at hmore
      have := hcommit hc hne'
      rwa [List.getLast?_cons_of_ne_nil hne']
    · have hnt : (if isCommit = true ∧ pList.isEmpty = true then nTruncate else 0) < 2 ^ 32 := by
        split_ifs
        · exact hn
        · decide
      have hpp' := hpp
      rw [← hps] at hpp'
      refine wp_bind.2 ((walWriteOneFrame_wp hs.written hpp' hnt (by omega) (by rw [hps])).mono
        (fun _ s₁ ⟨hw₁, hwritten, hsame, hnt₁, hre⟩ => ?_) fun _ s₁ hw₁ => hw₁)
      have hs₁ := hs.append hw₁ hwritten hre
      have hk₁ : s₀.KeepsBefore s₁ := fun k hk h => ⟨by rwa [hre] at h, hsame.mono (by omega)⟩
      have hmx₁ := hw₁.mxFrame
      have hrec := @writeFrames_wp iFirst isCommit sync_flags hn pList (log ++ [p]) s₁ hs₁
        (by rwa [hw₁.live]) hrest
      rw [List.length_append, List.length_singleton] at hrec
      refine wp_bind.2 (hrec.mono (fun pages s₂ ⟨hw₂, hk₂, hnil, log', hs₂, hwrote, hcommit⟩ => ?_)
        fun _ s₂ hw₂ => hw₁.trans hw₂)
      rw [hmx₁] at hwrote
      refine ⟨hw₁.trans hw₂, hk₁.trans hk₂ hmx₁, fun h => absurd h (List.cons_ne_nil _ _), log', hs₂,
        .append hwrote, fun hc _ => ?_⟩
      rcases eq_or_ne pList [] with rfl | hne'
      · cases hwrote
        refine ⟨rfl, ?_⟩
        rw [if_pos ⟨hc, rfl⟩] at hnt₁
        rw [hnil rfl, List.length_append]
        exact hnt₁
      · obtain ⟨hlast, hnt₂⟩ := hcommit hc hne'
        have hne'' : pages ≠ [] := by
          intro he
          rw [he, List.getLast?_nil] at hlast
          exact hne' (List.getLast?_eq_none_iff.1 hlast.symm)
        rw [List.getLast?_cons_of_ne_nil hne', List.getLast?_cons_of_ne_nil hne'']
        exact ⟨hlast, hnt₂⟩

/-! ## The checksums of a commit -/

theorem get4byte_take {l : List UInt8} {n : ℕ} (hn : 4 ≤ n) : get4byte (l.take n) = get4byte l := by
  simp [get4byte, u8, List.getD_eq_getElem?_getD, show 0 < n by omega, show 1 < n by omega,
    show 2 < n by omega, show 3 < n by omega]

/-- The checksum that is read back is that of the frames before. -/
theorem readCksum_eq {k : ℕ} (hh : HeaderOf s.content s.pWal.toWal)
    (hg : GoodTo s.content k) {aBuf : List UInt8}
    (hb : aBuf = pread s.content (iCksumOff (k + 1) s.pWal.szPage) 8) :
    (get4byte aBuf, get4byte (aBuf.drop 4)) = cumCksum s.content k := by
  have h4 : aBuf.drop 4 = pread s.content (iCksumOff (k + 1) s.pWal.szPage + 4) 4 := by
    rw [hb, pread_drop]
  have hread : ∀ off n, 4 ≤ n → get4byte (pread s.content off n) = get4byte (s.content.drop off) :=
    fun off n hn => get4byte_take hn
  rw [h4, hb, hread _ _ (by decide), hread _ _ (by decide)]
  unfold iCksumOff
  rcases Nat.eq_zero_or_pos k with rfl | hpos
  · have hhdr : ∀ n, 32 - 4 - n < 32 → get4byte ((s.content.take WAL_HDRSIZE).drop n)
        = get4byte (pread s.content n (WAL_HDRSIZE - n)) := by
      intro n _
      rw [pread, List.drop_take]
    rw [if_pos rfl, hh.cksum, hhdr 24 (by decide), hhdr 28 (by decide), hread _ _ (by decide),
      hread _ _ (by decide)]
  · have hne : k + 1 ≠ 1 := by omega
    rw [if_neg hne, Nat.add_sub_cancel, (hg k hpos le_rfl).cksum, walFrame, readFrame_eq,
      hh.pageSize, pread_drop, pread_drop, hread _ _ (by unfold WAL_FRAME_HDRSIZE; omega),
      hread _ _ (by unfold WAL_FRAME_HDRSIZE; omega)]

theorem LogState.Writes.of_setCksum (hm : s.SameMem s₁) (hc : s₁.content = s.content)
    (c : ℕ × ℕ) : s.Writes { s₁ with pWal := s₁.pWal.setCksum c } := by
  refine ⟨hm.apWiData, hm.live, hm.nBackfill, ⟨c, 0, ?_⟩, ?_⟩
  · exact congrArg (fun p : WalHandle => p.setCksum c) hm.pWal
  · change SameFrames s.live.mxFrame s.content s₁.content
    rw [hc]
    exact .refl

theorem readCksum_wp {k : ℕ} (hh : LogHolds s.content s.pWal.toWal log)
    (hk : s.pWal.iReCksum = k + 1) (hg : GoodTo s.content k) :
    wp readCksum
      (fun _ s' => s.Writes s' ∧ s'.content = s.content ∧ Rewriting s'.content s'.pWal log k)
      (fun _ s' => s.Writes s') s := by
  unfold readCksum
  refine wp_bind.2 (wp_get.2 (wp_bind.2 (wp_onError.2 ?_)))
  refine sqlite3OsRead_wp.mono (fun aBuf s₁ ⟨hm, hc, hb⟩ => ?_) fun _ s₁ ⟨hm, hc⟩ => ?_
  · refine wp_modify.2 ?_
    have hc' : s₁.pWal = s.pWal := hm.pWal
    rw [hk] at hb
    have hck := readCksum_eq hh.header hg hb
    refine ⟨.of_setCksum hm hc _, hc, ?_⟩
    change Rewriting s₁.content (s₁.pWal.setCksum _) log k
    rw [hc, hc', hck]
    exact
      { header := hh.header.cksum_irrel
        cover := hh.cover
        pages := hh.pages
        pgno := hh.pgno
        zero := rfl
        good := hg
        cksum := rfl }
  · exact wp_modify.2 (.of_setCksum hm hc _)

/-- The loop over the frames whose checksums are rewritten. -/
theorem rewriteFrames_wp : ∀ (n k : ℕ) (s : LogState), Rewriting s.content s.pWal log k →
    k + n = log.length → s.live.mxFrame ≤ k →
    wp (rewriteFrames (walPageSize s.content) n (k + 1))
      (fun _ s' => s.Writes s' ∧ SameLog log.length s.content s'.content ∧
        Rewriting s'.content s'.pWal log log.length)
      (fun _ s' => s.Writes s') s
  | 0, k, s, hr, hn, _ => by
    have hk : k = log.length := by omega
    exact ⟨.refl, .refl, hk ▸ hr⟩
  | n + 1, k, s, hr, hn, hl => by
    unfold rewriteFrames encodeFrame
    simp only []
    refine wp_bind.2 (sqlite3OsRead_wp.mono (fun aBuf s₁ h₁ => ?_)
      fun _ s₁ h₁ => .of_sameMem h₁.1 h₁.2)
    obtain ⟨hm₁, hc₁, hb⟩ := h₁
    have hb : aBuf = walFrame s.content (k + 1) := hb
    rw [hb]
    obtain ⟨e, he⟩ : ∃ e, e = walEncodeFrame s.pWal (framePgno s.content (k + 1))
      (frameNTruncate s.content (k + 1)) (frameData s.content (k + 1)) := ⟨_, rfl⟩
    obtain ⟨c, hc⟩ := @walEncodeFrame_fst s.pWal (frameNTruncate s.content (k + 1))
      (framePgno s.content (k + 1)) (frameData s.content (k + 1))
    rw [← he] at hc
    refine wp_bind.2 (wp_bind.2 (wp_get.2 ?_))
    have he₁ : walEncodeFrame s₁.pWal (get4byte (walFrame s.content (k + 1)))
        (get4byte ((walFrame s.content (k + 1)).drop 4))
        ((walFrame s.content (k + 1)).drop WAL_FRAME_HDRSIZE) = e := by
      rw [he, hm₁.pWal, framePgno, frameNTruncate, frameData]
    simp only [he₁]
    refine wp_bind.2 (wp_set.2 (wp_pure.2 (wp_bind.2 ?_)))
    have hoff : walFrameOffset (k + 1) (walPageSize s.content) ≤ s.content.length :=
      (walFrameOffset_mono (by omega)).trans hr.cover
    have hwr : ∀ (s' : LogState) (bytes : List UInt8),
        ({ s₁ with pWal := e.1 } : LogState).SameMem s' →
        s'.content = pwrite 0 s.content (walFrameOffset (k + 1) (walPageSize s.content)) bytes →
        s.Writes s' := by
      intro s' bytes hm hc'
      refine .of_write (k := s.pWal.iReCksum) (hm.pWal.trans hc) (hm.apWiData.trans hm₁.apWiData)
        (hm.live.trans hm₁.live) (hm.nBackfill.trans hm₁.nBackfill) hc'
        (walFrameOffset_mono (by omega)) hoff
    have hcs : ({ s₁ with pWal := e.1 } : LogState).content = s.content := hc₁
    refine sqlite3OsWrite_wp.mono (fun _ s₂ h₂ => ?_) fun _ s₂ h₂ => ?_
    swap
    · obtain ⟨hm₂, n, hc₂⟩ := h₂
      exact hwr s₂ _ hm₂ (by rw [hc₂, hcs])
    obtain ⟨hm₂, hc₂⟩ := h₂
    rw [hcs] at hc₂
    have hw₂ := hwr s₂ _ hm₂ hc₂
    obtain ⟨hr₂, hlog, hsame⟩ := hr.next (by omega) he hc₂
    have hp₂ : s₂.pWal = e.1 := hm₂.pWal
    have hrec := rewriteFrames_wp n (k + 1) s₂ (by rwa [hp₂]) (by omega) (by
      rw [hw₂.live]
      omega)
    rw [hlog.pageSize] at hrec
    exact hrec.mono (fun _ s₃ h₃ => ⟨hw₂.trans h₃.1, hlog.trans h₃.2.1, h₃.2.2⟩)
      fun _ s₃ hw₃ => hw₂.trans hw₃

theorem walRewriteChecksums_wp (hs : s.Open cfg log) (h0 : s.pWal.iReCksum ≠ 0) :
    wp (walRewriteChecksums log.length)
      (fun _ s' => s.Writes s' ∧ SameLog log.length s.content s'.content ∧ s'.Open cfg log ∧
        s'.pWal.iReCksum = 0)
      (fun _ s' => s.Writes s') s := by
  unfold walRewriteChecksums
  refine wp_bind.2 (sqlite3_malloc_wp.mono (fun _ s₁ ⟨hm₁, hc₁, _⟩ => ?_)
    fun _ s₁ ⟨hm₁, hc₁⟩ => .of_sameMem hm₁ hc₁)
  have hw₁ : s.Writes s₁ := .of_sameMem hm₁ hc₁
  obtain ⟨hle, hgood⟩ := hs.written.before h0
  obtain ⟨k, hk⟩ : ∃ k, s.pWal.iReCksum = k + 1 := ⟨s.pWal.iReCksum - 1, by omega⟩
  rw [hk, Nat.add_sub_cancel] at hgood
  have hlive := (hs.iReCksum h0).1
  have hp₁ : s₁.pWal = s.pWal := hm₁.pWal
  refine wp_bind.2 (wp_get.2 (wp_bind.2 ?_))
  rw [hp₁, hk, ← hs.written.header.pageSize, show log.length + 1 - (k + 1) = log.length - k by omega]
  have hread := @readCksum_wp s₁ log k (by rw [hc₁, hp₁]; exact hs.written.toLogHolds)
    (by rw [hp₁, hk]) (by rwa [hc₁])
  refine hread.mono (fun _ s₂ ⟨hw₂, hc₂, hr₂⟩ => ?_) fun _ s₂ hw₂ => hw₁.trans hw₂
  have hw₁₂ := hw₁.trans hw₂
  rw [hc₁] at hc₂
  have hrec := rewriteFrames_wp (log.length - k) k s₂ hr₂ (by omega) (by rw [hw₁₂.live]; omega)
  rw [hc₂] at hrec
  refine hrec.mono (fun _ s₃ ⟨hw₃, hlog, hr₃⟩ => ?_) fun _ s₃ hw₃ => hw₁₂.trans hw₃
  have hw := hw₁₂.trans hw₃
  refine ⟨hw, hlog, ?_, hr₃.zero⟩
  refine ⟨hr₃.written, hw.szPage.trans hs.szPage, ?_, ?_, fun h => absurd hr₃.zero h, ?_⟩
  · rw [hw.live, hw.mxFrame]
    exact hs.live
  · rw [hw.mxFrame]
    exact hs.mxFrame
  · rw [hw.apWiData, hw.mxFrame]
    exact hs.index

end Frames

end Btreelite
