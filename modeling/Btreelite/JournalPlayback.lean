import Btreelite.RollbackJournal
import Mathlib.Data.List.Nodup

/-!
# Playing a rollback journal back

A journal is a list of segments, each a header with the records behind it. `pager_playback` goes through the
segments one round each, and stops where no header stands.
-/

namespace Btreelite

namespace Journal

open Prog ByteFile

/-- The sizes of a transaction. -/
structure Sizes where
  pageSize : ℕ
  sectorSize : ℕ
  dbOrigSize : ℕ
  valid : validSizes pageSize sectorSize = true
  /-- `SQLITE_MAX_PAGE_COUNT` -/
  max : dbOrigSize ≤ 0xfffffffe

/-- `pager_cksum` with its two fields of the pager. -/
def cksum (pageSize cksumInit : ℕ) (aData : List UInt8) : ℕ :=
  cksumLoop aData pageSize (pageSize - 200) cksumInit

section Layout

/-- Big-endian integers one behind the other. -/
def words (ws : List ℕ) : List UInt8 := ws.flatMap put4byte

variable (g : Sizes) (f : List UInt8)

/-- The fields of a header stand at `h`. -/
structure HeaderAt (h nRec cksumInit : ℕ) : Prop where
  fits : h + g.sectorSize ≤ f.length
  fields : pread f (h + 8) 20 = words [nRec, cksumInit, g.dbOrigSize, g.sectorSize, g.pageSize]
  nRec_lt : nRec < 2 ^ 32
  cksum_lt : cksumInit < 2 ^ 32

def recordBytes (cksumInit : ℕ) (r : PgRec) : List UInt8 :=
  put4byte r.1 ++ (r.2 ++ put4byte (cksum g.pageSize cksumInit r.2))

/-- The records `rs` stand one behind the other from `off` on. -/
def RecordsAt (cksumInit : ℕ) : ℕ → List PgRec → Prop
  | _, [] => True
  | off, r :: rs => pread f off (g.pageSize + 8) = recordBytes g cksumInit r
    ∧ RecordsAt cksumInit (off + (g.pageSize + 8)) rs

/-- A page that a transaction can journal. -/
structure RecordOk (r : PgRec) : Prop where
  pos : r.1 ≠ 0
  unlocked : r.1 ≠ PENDING_BYTE / g.pageSize + 1
  le : r.1 ≤ g.dbOrigSize
  size : r.2.length = g.pageSize

/-- A checksum value with the records that follow its header. -/
abbrev Seg := ℕ × List PgRec

/-- The end of `rs` records behind a header at `h`. -/
def segEnd (h n : ℕ) : ℕ := h + g.sectorSize + n * (g.pageSize + 8)

/-- Synced segments stand from `off` to `e`. -/
def SegsAt : ℕ → List Seg → ℕ → Prop
  | off, [], e => off = e
  | off, s :: segs, e => pread f (roundUp g.sectorSize off) 8 = aJournalMagic
    ∧ HeaderAt g f (roundUp g.sectorSize off) s.2.length s.1
    ∧ RecordsAt g f s.1 (roundUp g.sectorSize off + g.sectorSize) s.2
    ∧ ((∀ r ∈ s.2, RecordOk g r) ∧ s.2.length ≤ g.dbOrigSize)
    ∧ SegsAt (segEnd g (roundUp g.sectorSize off) s.2.length) segs e

/-- What stands at `off` is not a record of a page with the right checksum. -/
def Stale (cksumInit off : ℕ) : Prop :=
  get4byte (pread f off 4) ≠ 0 → get4byte (pread f off 4) ≤ g.dbOrigSize →
    cksum g.pageSize cksumInit (pread f (off + 4) g.pageSize) ≠ get4byte (pread f (off + g.pageSize + 4) 4)

end Layout

section Words

variable {f : List UInt8} {off i w n : ℕ} {ws : List ℕ}

theorem words_drop : ∀ (ws : List ℕ) (i : ℕ), (words ws).drop (4 * i) = words (ws.drop i)
  | _, 0 => rfl
  | [], _ + 1 => by simp [words]
  | w :: ws, i + 1 => by
    rw [words, List.flatMap_cons, Nat.mul_succ, Nat.add_comm, ← List.drop_drop, List.drop_left' (put4byte_length w),
      List.drop_succ_cons]
    exact words_drop ws i

/-- A field of a header is read. -/
theorem get4byte_words (h : pread f off n = words ws) (hi : ws[i]? = some w) (hw : w < 2 ^ 32) (hn : 4 * i + 4 ≤ n) :
    get4byte (pread f (off + 4 * i) 4) = w := by
  have hdrop : pread f (off + 4 * i) (n - 4 * i) = words (ws.drop i) := by
    rw [← pread_drop, h, words_drop]
  obtain ⟨hlt, rfl⟩ := List.getElem?_eq_some_iff.1 hi
  rw [← pread_take (n := n - 4 * i) (by omega), hdrop, List.drop_eq_getElem_cons hlt, words, List.flatMap_cons,
    List.take_left' (put4byte_length _), ← List.append_nil (put4byte _)]
  exact get4byte_put4byte hw []

theorem cksumLoop_lt (aData : List UInt8) : ∀ (fuel i : ℕ) {c : ℕ}, c < 2 ^ 32 → cksumLoop aData fuel i c < 2 ^ 32
  | 0, _, _, h => h
  | fuel + 1, i, c, h => by
    rw [cksumLoop]
    split_ifs
    · exact h
    · exact cksumLoop_lt aData fuel _ (Nat.mod_lt _ (by decide))

end Words

section RoundUp

variable {n c : ℕ}

theorem le_roundUp (hn : 0 < n) : c ≤ roundUp n c := by
  unfold roundUp
  split_ifs with h
  · omega
  · have := Nat.lt_mul_div_succ (c - 1) hn
    rw [Nat.mul_comm]
    omega

theorem dvd_roundUp : n ∣ roundUp n c := by
  unfold roundUp
  split_ifs
  · exact dvd_zero n
  · exact dvd_mul_left n _

theorem roundUp_of_dvd (hn : 0 < n) (h : n ∣ c) : roundUp n c = c := by
  obtain ⟨k, rfl⟩ := h
  unfold roundUp
  rcases Nat.eq_zero_or_pos k with rfl | hk
  · rw [Nat.mul_zero, if_pos rfl]
  · have hpos : 0 < n * k := Nat.mul_pos hn hk
    have hdiv : (n * k - 1) / n = k - 1 := by
      obtain ⟨j, rfl⟩ : ∃ j, k = j + 1 := ⟨k - 1, by omega⟩
      rw [Nat.mul_succ, Nat.add_sub_assoc hn, Nat.mul_add_div hn, Nat.div_eq_of_lt (by omega), Nat.add_zero,
        Nat.add_sub_cancel]
    rw [if_neg (by omega), hdiv, Nat.sub_add_cancel hk, Nat.mul_comm]

end RoundUp

/-! ## One header -/

section Reads

variable {p : Pager} {off n : ℕ} {E : Rc → Pager → Prop}

theorem sqlite3OsRead_wp {Q : List UInt8 → Pager → Prop} (h : off + n ≤ p.jfd.length) :
    wp (sqlite3OsRead n off) Q E p ↔ Q (pread p.jfd off n) p := by
  rw [sqlite3OsRead, wp_bind, wp_get]
  dsimp only
  rw [if_pos (pread_length_of_le h), wp_pure]

theorem read32bits_wp {Q : ℕ → Pager → Prop} (h : off + 4 ≤ p.jfd.length) :
    wp (read32bits off) Q E p ↔ Q (get4byte (pread p.jfd off 4)) p := by
  rw [read32bits, wp_map, sqlite3OsRead_wp h]

end Reads

/-- The reader stands at `off`, behind the pages `R`. At the start of the file it may have other sizes than the
journal, and does not know how large the database was. -/
structure Reading (g : Sizes) (f : List UInt8) (hdr off : ℕ) (R : List PgRec) (q : Pager) : Prop where
  jfd : q.jfd = f
  journalHdr : q.journalHdr = hdr
  journalOff : q.journalOff = off
  restored : q.restored = R
  sector : 32 ≤ q.sectorSize
  sizes : off ≠ 0 → q.pageSize = g.pageSize ∧ q.sectorSize = g.sectorSize ∧ q.dbSize = g.dbOrigSize

section Header

variable {g : Sizes} {f : List UInt8} {hdr off h nRec c : ℕ} {R : List PgRec} {q : Pager} {isHot : Bool}

theorem Sizes.bounds (g : Sizes) : 512 ≤ g.pageSize ∧ 32 ≤ g.sectorSize ∧ g.pageSize ≤ 65536 ∧ g.sectorSize ≤ 65536 := by
  have h := g.valid
  rw [validSizes, decide_eq_true_eq] at h
  omega

theorem Reading.hdrOffset (hr : Reading g f hdr off R q) : journalHdrOffset q = roundUp g.sectorSize off := by
  rw [journalHdrOffset, JOURNAL_HDR_SZ, hr.journalOff]
  rcases Nat.eq_zero_or_pos off with rfl | hpos
  · rfl
  · rw [(hr.sizes (by omega)).2.1]

/-- No header is read where the magic is looked for and does not stand. -/
theorem Reading.readJournalHdr_done (hr : Reading g f hdr off R q)
    (hd : off = 0 ∨ roundUp g.sectorSize off + g.sectorSize ≤ f.length →
      (isHot = true ∨ roundUp g.sectorSize off ≠ hdr) ∧ pread f (roundUp g.sectorSize off) 8 ≠ aJournalMagic) :
    wp (readJournalHdr isHot f.length) (fun _ _ => False) (fun e q' => e = .done ∧ q'.restored = R) q := by
  rw [readJournalHdr, wp_bind, wp_modify, wp_bind, wp_get]
  dsimp only
  rw [hr.hdrOffset, wp_ite]
  refine ⟨fun _ => ⟨rfl, hr.restored⟩, fun hfit => ?_⟩
  rw [JOURNAL_HDR_SZ] at hfit
  dsimp only at hfit
  have hsector := hr.sector
  obtain ⟨hcheck, hmagic⟩ := hd <| by
    rcases Nat.eq_zero_or_pos off with h0 | hpos
    · exact Or.inl h0
    · have := (hr.sizes (by omega)).2.1
      exact Or.inr (by omega)
  rw [wp_bind, checkMagic, wp_bind, wp_get]
  dsimp only
  rw [hr.journalHdr, if_pos hcheck, wp_bind, sqlite3OsRead_wp (by rw [hr.jfd]; omega)]
  dsimp only
  rw [hr.jfd, if_pos hmagic, wp_throw]
  exact ⟨rfl, hr.restored⟩

theorem checkMagic_wp {p : Pager} {Q : Unit → Pager → Prop} {E : Rc → Pager → Prop} (hlen : h + 8 ≤ p.jfd.length)
    (hm : isHot = true ∨ h ≠ p.journalHdr → pread p.jfd h 8 = aJournalMagic) :
    wp (checkMagic isHot h) Q E p ↔ Q ⟨⟩ p := by
  rw [checkMagic, wp_bind, wp_get]
  by_cases hc : isHot = true ∨ h ≠ p.journalHdr
  · rw [if_pos hc, wp_bind, sqlite3OsRead_wp hlen, if_neg (not_not.2 (hm hc)), wp_pure]
  · rw [if_neg hc, wp_pure]

theorem readSizes_wp {p : Pager} (hh : HeaderAt g p.jfd h nRec c)
    (hs : h ≠ 0 → p.pageSize = g.pageSize ∧ p.sectorSize = g.sectorSize) :
    wp (readSizes h) (fun _ p' => p' = { p with pageSize := g.pageSize, sectorSize := g.sectorSize })
      (fun _ _ => False) p := by
  have hb := g.bounds
  have hlen := hh.fits
  rw [readSizes]
  split_ifs with h0
  · have hsector : get4byte (pread p.jfd (h + 20) 4) = g.sectorSize :=
      get4byte_words (i := 3) hh.fields rfl (by omega) (by omega)
    have hpage : get4byte (pread p.jfd (h + 24) 4) = g.pageSize :=
      get4byte_words (i := 4) hh.fields rfl (by omega) (by omega)
    rw [wp_bind, read32bits_wp (by omega), wp_bind, read32bits_wp (by omega), wp_bind, wp_get]
    dsimp only
    rw [hsector, hpage, if_neg (show ¬ g.pageSize = 0 by omega), if_pos g.valid, wp_set]
  · rw [wp_pure, ← (hs h0).1, ← (hs h0).2]

/-- What a header says is read. -/
theorem Reading.readJournalHdr_wp (hr : Reading g f hdr off R q) (hh : HeaderAt g f (roundUp g.sectorSize off) nRec c)
    (hfit : off = 0 → q.sectorSize ≤ f.length)
    (hm : isHot = true ∨ roundUp g.sectorSize off ≠ hdr → pread f (roundUp g.sectorSize off) 8 = aJournalMagic) :
    wp (readJournalHdr isHot f.length) (fun r q' => r = (nRec, g.dbOrigSize) ∧ q' = { q with
      journalOff := roundUp g.sectorSize off + g.sectorSize
      cksumInit := c
      pageSize := g.pageSize
      sectorSize := g.sectorSize }) (fun _ _ => False) q := by
  obtain rfl := hr.jfd
  have hb := g.bounds
  have hlen := hh.fits
  have hmax := g.max
  have hnRec : get4byte (pread q.jfd (roundUp g.sectorSize off + 8) 4) = nRec :=
    get4byte_words (i := 0) hh.fields rfl hh.nRec_lt (by omega)
  have hcksum : get4byte (pread q.jfd (roundUp g.sectorSize off + 12) 4) = c :=
    get4byte_words (i := 1) hh.fields rfl hh.cksum_lt (by omega)
  have hdbSize : get4byte (pread q.jfd (roundUp g.sectorSize off + 16) 4) = g.dbOrigSize :=
    get4byte_words (i := 2) hh.fields rfl (by omega) (by omega)
  have hroom : ¬ roundUp g.sectorSize off + q.sectorSize > q.jfd.length := by
    rcases Nat.eq_zero_or_pos off with rfl | hpos
    · have := hfit rfl
      rw [roundUp, if_pos rfl]
      omega
    · have := (hr.sizes (by omega)).2.1
      omega
  rw [readJournalHdr, wp_bind, wp_modify, wp_bind, wp_get]
  dsimp only
  rw [hr.hdrOffset, wp_ite]
  refine ⟨fun hgt => absurd hgt hroom, fun _ => ?_⟩
  rw [wp_bind]
  refine (checkMagic_wp (by dsimp only; omega) (by rw [hr.journalHdr]; exact hm)).2 ?_
  rw [wp_bind, read32bits_wp (by dsimp only; omega), wp_bind, read32bits_wp (by dsimp only; omega), wp_bind, wp_modify,
    wp_bind, read32bits_wp (by dsimp only; omega), wp_bind]
  dsimp only
  rw [hnRec, hcksum, hdbSize]
  refine (readSizes_wp (p := { q with journalOff := _, cksumInit := c }) hh fun h0 => ?_).post ?_
  · have hoff : off ≠ 0 := by
      rintro rfl
      exact h0 rfl
    exact ⟨(hr.sizes hoff).1, (hr.sizes hoff).2.1⟩
  · rintro _ _ rfl
    exact ⟨rfl, rfl⟩

end Header

/-! ## The records behind a header -/

section Records

variable {g : Sizes} {f : List UInt8} {c : ℕ} {q : Pager}

theorem cksum_lt {aData : List UInt8} (hc : c < 2 ^ 32) : cksum g.pageSize c aData < 2 ^ 32 :=
  cksumLoop_lt aData g.pageSize _ hc

/-- A record is read piece by piece. -/
theorem pread_record {r : PgRec} {off : ℕ} (hr : RecordOk g r) (h : pread f off (g.pageSize + 8) = recordBytes g c r) :
    pread f off 4 = put4byte r.1 ∧ pread f (off + 4) g.pageSize = r.2
      ∧ pread f (off + g.pageSize + 4) 4 = put4byte (cksum g.pageSize c r.2) := by
  have hrest : pread f (off + 4) (g.pageSize + 4) = r.2 ++ put4byte (cksum g.pageSize c r.2) := by
    rw [show g.pageSize + 4 = g.pageSize + 8 - 4 by omega, ← pread_drop, h, recordBytes,
      List.drop_left' (put4byte_length r.1)]
  refine ⟨?_, ?_, ?_⟩
  · rw [← pread_take (n := g.pageSize + 8) (by omega), h, recordBytes, List.take_left' (put4byte_length r.1)]
  · rw [← pread_take (n := g.pageSize + 4) (by omega), hrest, List.take_left' hr.size]
  · rw [show off + g.pageSize + 4 = off + 4 + g.pageSize by omega, show 4 = g.pageSize + 4 - g.pageSize by omega,
      ← pread_drop, show g.pageSize + 4 - g.pageSize = 4 by omega, hrest, List.drop_left' hr.size]

/-- The reader is behind the first header, with the checksum value `c`. -/
structure Inside (g : Sizes) (c : ℕ) (q : Pager) : Prop where
  pageSize : q.pageSize = g.pageSize
  dbSize : q.dbSize = g.dbOrigSize
  cksumInit : q.cksumInit = c

theorem Inside.record_wp (hq : Inside g c q) (hc : c < 2 ^ 32) {r : PgRec} (hr : RecordOk g r)
    (h : pread q.jfd q.journalOff (g.pageSize + 8) = recordBytes g c r)
    (hfit : q.journalOff + (g.pageSize + 8) ≤ q.jfd.length) :
    wp pager_playback_one_page (fun _ q' => q' = { q with
      journalOff := q.journalOff + (g.pageSize + 8)
      restored := q.restored ++ [r] }) (fun _ _ => False) q := by
  obtain ⟨h1, h2, h3⟩ := pread_record hr h
  have hmax := g.max
  have hpgno : get4byte (pread q.jfd q.journalOff 4) = r.1 := by
    rw [h1, ← List.append_nil (put4byte r.1)]
    exact get4byte_put4byte (by have := hr.le; omega) []
  have hcksum : get4byte (pread q.jfd (q.journalOff + g.pageSize + 4) 4) = cksum g.pageSize c r.2 := by
    rw [h3, ← List.append_nil (put4byte _)]
    exact get4byte_put4byte (cksum_lt hc) []
  rw [pager_playback_one_page, wp_bind, wp_get, wp_bind, read32bits_wp (by omega), wp_bind,
    sqlite3OsRead_wp (by rw [hq.pageSize]; omega), wp_bind, wp_modify]
  rw [hpgno, hq.pageSize, h2, if_neg (not_or.2 ⟨hr.pos, by rw [PAGER_SJ_PGNO, hq.pageSize]; exact hr.unlocked⟩),
    if_neg (by rw [hq.dbSize]; exact Nat.not_lt.2 hr.le), wp_bind, read32bits_wp (by dsimp only; omega)]
  dsimp only
  rw [hcksum, if_neg (by rw [pager_cksum, hq.pageSize, hq.cksumInit]; exact not_not.2 rfl), wp_modify]

/-- What is not a record is passed over or ends the pages. -/
theorem Inside.stale_wp (hq : Inside g c q) (h : Stale g q.jfd c q.journalOff)
    (hfit : q.journalOff + (g.pageSize + 8) ≤ q.jfd.length) :
    wp pager_playback_one_page (fun _ q' => q' = { q with journalOff := q.journalOff + (g.pageSize + 8) })
      (fun e q' => e = .done ∧ q' = { q with journalOff := q.journalOff + (g.pageSize + 8) }) q := by
  rw [pager_playback_one_page, wp_bind, wp_get, wp_bind, read32bits_wp (by omega), wp_bind,
    sqlite3OsRead_wp (by rw [hq.pageSize]; omega), wp_bind, wp_modify]
  rw [hq.pageSize, wp_ite]
  refine ⟨fun _ => ⟨rfl, rfl⟩, fun hpgno => ?_⟩
  rw [wp_ite]
  refine ⟨fun _ => rfl, fun hle => ?_⟩
  rw [wp_bind, read32bits_wp (by dsimp only; omega)]
  dsimp only
  rw [if_pos, wp_throw]
  · exact ⟨rfl, rfl⟩
  · rw [pager_cksum, hq.pageSize, hq.cksumInit]
    exact h (not_or.1 hpgno).1 (by rw [hq.dbSize] at hle; omega)

theorem playbackPages_records {Q : Unit → Pager → Prop} {E : Rc → Pager → Prop} {n : ℕ} (hc : c < 2 ^ 32) :
    ∀ (rs : List PgRec) {q : Pager}, Inside g c q → RecordsAt g q.jfd c q.journalOff rs → (∀ r ∈ rs, RecordOk g r) →
      q.journalOff + rs.length * (g.pageSize + 8) ≤ q.jfd.length →
      wp (playbackPages n) Q E { q with
        journalOff := q.journalOff + rs.length * (g.pageSize + 8)
        restored := q.restored ++ rs } →
      wp (playbackPages (rs.length + n)) Q E q
  | [], q, _, _, _, _, h => by
    simp only [List.length_nil, Nat.zero_mul, Nat.add_zero, List.append_nil] at h
    rw [List.length_nil, Nat.zero_add]
    exact h
  | r :: rs, q, hq, hrs, hok, hfit, h => by
    have hmul : (r :: rs).length * (g.pageSize + 8) = g.pageSize + 8 + rs.length * (g.pageSize + 8) := by
      rw [List.length_cons, Nat.succ_mul, Nat.add_comm]
    rw [hmul] at hfit h
    rw [List.length_cons, show rs.length + 1 + n = rs.length + n + 1 by omega, playbackPages, wp_bind]
    refine (hq.record_wp hc (hok r List.mem_cons_self) hrs.1 (by omega)).mono ?_ fun _ _ => False.elim
    rintro _ _ rfl
    refine playbackPages_records hc rs ⟨hq.1, hq.2, hq.3⟩ hrs.2 (fun r hr => hok r (List.mem_cons_of_mem _ hr)) ?_ ?_
    · dsimp only
      omega
    · dsimp only
      rw [Nat.add_assoc, List.append_assoc, List.singleton_append]
      exact h

theorem playbackPages_stale : ∀ (m : ℕ) {q : Pager}, Inside g c q →
    (∀ i < m, Stale g q.jfd c (q.journalOff + i * (g.pageSize + 8))) →
    q.journalOff + m * (g.pageSize + 8) ≤ q.jfd.length →
    wp (playbackPages m) (fun _ q' => q' = { q with journalOff := q.journalOff + m * (g.pageSize + 8) })
      (fun e q' => e = .done ∧ 0 < m ∧ ∃ o, q' = { q with journalOff := o }) q
  | 0, q, _, _, _ => by
    rw [playbackPages, wp_pure, Nat.zero_mul, Nat.add_zero]
  | m + 1, q, hq, hs, hfit => by
    rw [Nat.succ_mul] at hfit ⊢
    rw [playbackPages, wp_bind]
    have hfirst := hs 0 (by omega)
    rw [Nat.zero_mul, Nat.add_zero] at hfirst
    refine (hq.stale_wp hfirst (by omega)).mono ?_ fun e _ ⟨he, hq'⟩ => ⟨he, by omega, _, hq'⟩
    rintro _ _ rfl
    refine (playbackPages_stale m (q := { q with journalOff := q.journalOff + (g.pageSize + 8) })
      ⟨hq.1, hq.2, hq.3⟩ (fun i hi => ?_) (by dsimp only; omega)).mono ?_ ?_
    · have := hs (i + 1) (by omega)
      rw [Nat.succ_mul] at this
      dsimp only
      rw [Nat.add_assoc, Nat.add_comm (g.pageSize + 8)]
      exact this
    · rintro _ _ rfl
      dsimp only
      rw [Nat.add_assoc, Nat.add_comm (g.pageSize + 8)]
    · rintro e _ ⟨he, -, o, rfl⟩
      exact ⟨he, by omega, o, rfl⟩

end Records

/-! ## The rounds of a playback -/

section Ends

variable {g : Sizes} {f : List UInt8} {c e : ℕ}

theorem recordBytes_length {r : PgRec} (hr : RecordOk g r) : (recordBytes g c r).length = g.pageSize + 8 := by
  simp only [recordBytes, List.length_append, put4byte_length, hr.size]
  omega

theorem RecordsAt.fits : ∀ {rs : List PgRec} {off : ℕ}, RecordsAt g f c off rs → (∀ r ∈ rs, RecordOk g r) →
    off ≤ f.length → off + rs.length * (g.pageSize + 8) ≤ f.length
  | [], _, _, _, h => by
    rw [List.length_nil, Nat.zero_mul]
    exact h
  | r :: rs, off, ⟨hr, hrs⟩, hok, h => by
    have hlen := congrArg List.length hr
    rw [pread_length, recordBytes_length (hok r List.mem_cons_self)] at hlen
    have := hrs.fits (fun r hr => hok r (List.mem_cons_of_mem _ hr)) (by omega)
    rw [List.length_cons, Nat.succ_mul]
    omega

theorem SegsAt.le : ∀ {segs : List Seg} {off : ℕ}, SegsAt g f off segs e → off + segs.length * g.sectorSize ≤ e
  | [], _, h => by
    rw [List.length_nil, Nat.zero_mul]
    exact Nat.le_of_eq h
  | s :: segs, off, ⟨_, _, _, _, hs⟩ => by
    have := hs.le
    have := le_roundUp (c := off) (show 0 < g.sectorSize by have := g.bounds; omega)
    rw [segEnd] at *
    rw [List.length_cons, Nat.succ_mul]
    omega

end Ends

section Rounds

variable {g : Sizes} {f : List UInt8} {hdr off nRec c : ℕ} {R R' : List PgRec} {q : Pager} {isHot : Bool} {m fuel : ℕ}

/-- The playback ends with the pages `R`. -/
def Plays (isHot : Bool) (szJ fuel : ℕ) (R : List PgRec) (q : Pager) : Prop :=
  wp (playbackLoop isHot szJ fuel) (fun _ q' => q'.restored = R) (fun _ _ => False) q

theorem Reading.stop (hr : Reading g f hdr off R q)
    (hd : off = 0 ∨ roundUp g.sectorSize off + g.sectorSize ≤ f.length →
      (isHot = true ∨ roundUp g.sectorSize off ≠ hdr) ∧ pread f (roundUp g.sectorSize off) 8 ≠ aJournalMagic) :
    Plays isHot f.length (fuel + 1) R q := by
  rw [Plays, playbackLoop, wp_bind, wp_attempt]
  refine (hr.readJournalHdr_done hd).mono (fun _ _ => False.elim) ?_
  rintro e q' ⟨rfl, h⟩
  exact h

/-- A round reads a header, plays back the records `rs`, and tries `m` more. -/
theorem Reading.round (rs : List PgRec) (hr : Reading g f hdr off R q) (hh : HeaderAt g f (roundUp g.sectorSize off) nRec c)
    (hfit : off = 0 → q.sectorSize ≤ f.length)
    (hm : isHot = true ∨ roundUp g.sectorSize off ≠ hdr → pread f (roundUp g.sectorSize off) 8 = aJournalMagic)
    (hcount : ∀ q' : Pager, q'.pageSize = g.pageSize → q'.sectorSize = g.sectorSize → q'.journalHdr = hdr →
      q'.journalOff = roundUp g.sectorSize off + g.sectorSize → recordCount isHot f.length nRec q' = rs.length + m)
    (hrs : RecordsAt g f c (roundUp g.sectorSize off + g.sectorSize) rs) (hok : ∀ r ∈ rs, RecordOk g r)
    (hend : segEnd g (roundUp g.sectorSize off) (rs.length + m) ≤ f.length)
    (hstale : ∀ i < m, Stale g f c (segEnd g (roundUp g.sectorSize off) (rs.length + i)))
    (hnext : ∀ e q', e = segEnd g (roundUp g.sectorSize off) (rs.length + m) ∨ 0 < m ∧ e = f.length →
      Reading g f hdr e (R ++ rs) q' → Plays isHot f.length fuel R' q') :
    Plays isHot f.length (fuel + 1) R' q := by
  obtain rfl := hr.jfd
  have hb := g.bounds
  have hpos : 0 < segEnd g (roundUp g.sectorSize off) (rs.length + m) := by
    rw [segEnd]
    omega
  rw [Plays, playbackLoop, wp_bind, wp_attempt]
  refine (hr.readJournalHdr_wp hh hfit hm).mono ?_ fun _ _ => False.elim
  rintro _ _ ⟨rfl, rfl⟩
  dsimp only
  -- The reader behind the header.
  obtain ⟨q₁, hq₁⟩ : ∃ q₁ : Pager, q₁ = { q with
      journalOff := roundUp g.sectorSize off + g.sectorSize
      cksumInit := c
      pageSize := g.pageSize
      sectorSize := g.sectorSize
      dbSize := g.dbOrigSize } := ⟨_, rfl⟩
  have hfirst : truncateFirst g.dbOrigSize { q with
      journalOff := roundUp g.sectorSize off + g.sectorSize
      cksumInit := c
      pageSize := g.pageSize
      sectorSize := g.sectorSize } = q₁ := by
    rw [truncateFirst, JOURNAL_HDR_SZ, hq₁]
    dsimp only
    split_ifs with h0
    · rfl
    · have hoff : off ≠ 0 := by
        rintro rfl
        rw [roundUp, if_pos rfl] at h0
        omega
      rw [← (hr.sizes hoff).2.2]
  have hin : Inside g c q₁ := by
    subst hq₁
    exact ⟨rfl, rfl, rfl⟩
  have hoff : q₁.journalOff = roundUp g.sectorSize off + g.sectorSize := by rw [hq₁]
  have hjfd : q₁.jfd = q.jfd := by rw [hq₁]
  have hreading : ∀ {e : ℕ}, 0 < e → Reading g q.jfd hdr e (R ++ rs)
      { q₁ with journalOff := e, restored := q₁.restored ++ rs } := fun he => by
    subst hq₁
    exact ⟨rfl, hr.journalHdr, rfl, by dsimp only; rw [hr.restored], hb.2.1, fun _ => ⟨rfl, rfl, rfl⟩⟩
  have hsegEnd : ∀ n, q₁.journalOff + n * (g.pageSize + 8) = segEnd g (roundUp g.sectorSize off) n := fun n => by
    rw [hoff, segEnd]
  have hadd : ∀ n, segEnd g (roundUp g.sectorSize off) rs.length + n * (g.pageSize + 8)
      = segEnd g (roundUp g.sectorSize off) (rs.length + n) := fun n => by
    rw [segEnd, segEnd, Nat.add_mul]
    omega
  have hn := hcount q₁ (by rw [hq₁]) (by rw [hq₁]) (by rw [hq₁]; exact hr.journalHdr) hoff
  rw [wp_bind, wp_modify, wp_bind, wp_get, wp_bind, wp_attempt, hfirst, hn]
  rw [← hadd] at hend hnext
  refine playbackPages_records hh.cksum_lt rs hin (by rw [hjfd, hoff]; exact hrs) hok
    (by rw [hjfd, hsegEnd]; omega) ?_
  rw [hsegEnd]
  refine (playbackPages_stale m (q := { q₁ with
      journalOff := segEnd g (roundUp g.sectorSize off) rs.length
      restored := q₁.restored ++ rs }) ⟨hin.1, hin.2, hin.3⟩
    (fun i hi => ?_) (by dsimp only; rw [hjfd]; exact hend)).mono ?_ ?_
  · dsimp only
    rw [hadd, hjfd]
    exact hstale i hi
  · rintro _ _ rfl
    exact hnext _ _ (Or.inl rfl) (hreading (by rw [hadd]; exact hpos))
  · rintro _ _ ⟨rfl, hm, o, rfl⟩
    dsimp only
    rw [wp_bind, wp_modify]
    exact hnext _ _ (Or.inr ⟨hm, rfl⟩) (hreading (by have := hh.fits; omega))

/-- The playback of synced segments. -/
theorem Reading.segs {e : ℕ} (hhdr : isHot = true ∨ e ≤ hdr) :
    ∀ (segs : List Seg) {off : ℕ} {R : List PgRec} {q : Pager}, SegsAt g f off segs e → Reading g f hdr off R q →
      (segs ≠ [] → off = 0 → q.sectorSize ≤ f.length) →
      (∀ q', (segs = [] → q' = q) → Reading g f hdr e (R ++ segs.flatMap Prod.snd) q' → Plays isHot f.length fuel R' q') →
      Plays isHot f.length (segs.length + fuel) R' q
  | [], off, R, q, hs, hr, _, hnext => by
    obtain rfl : off = e := hs
    rw [List.length_nil, Nat.zero_add]
    refine hnext q (fun _ => rfl) ?_
    rw [List.flatMap_nil, List.append_nil]
    exact hr
  | s :: segs, off, R, q, ⟨hmagic, hh, hrs, hok, hs⟩, hr, hfit, hnext => by
    have hle := hs.le
    have hmax := g.max
    have hn := hok.2
    have hb := g.bounds
    rw [List.length_cons, show segs.length + 1 + fuel = segs.length + fuel + 1 by omega]
    refine hr.round (m := 0) s.2 hh (hfit (List.cons_ne_nil s segs)) (fun _ => hmagic) ?_ hrs hok.1
      (hrs.fits hok.1 hh.fits) (fun i hi => absurd hi (Nat.not_lt_zero i)) ?_
    · rintro q' - hsec hq hoff
      rw [recordCount, if_neg (show ¬ s.2.length = 0xffffffff by omega), Nat.add_zero, if_neg]
      rintro ⟨-, hcold, hlast⟩
      rcases hhdr with hot | hhdr
      · exact hcold hot
      · rw [JOURNAL_HDR_SZ, hsec, hq, hoff] at hlast
        rw [segEnd] at hle
        omega
    · rintro e' q' (rfl | ⟨h0, -⟩) hr'
      · rw [Nat.add_zero] at hr'
        refine Reading.segs hhdr segs hs hr' (fun _ h0 => ?_) fun q'' _ hr'' => hnext q'' ?_ ?_
        · rw [segEnd] at h0
          omega
        · exact fun h => absurd h (List.cons_ne_nil s segs)
        · rw [List.flatMap_cons, ← List.append_assoc]
          exact hr''
      · exact absurd h0 (Nat.lt_irrefl 0)

/-- A last segment that the reader counts by the size of the file, with bytes behind it that are no records and
do not begin with the magic. -/
theorem Reading.rest (nRec : ℕ) (rs : List PgRec) (hr : Reading g f hdr off R q) (hh : HeaderAt g f (roundUp g.sectorSize off) nRec c)
    (hfit : off = 0 → q.sectorSize ≤ f.length)
    (hm : isHot = true ∨ roundUp g.sectorSize off ≠ hdr → pread f (roundUp g.sectorSize off) 8 = aJournalMagic)
    (hcount : ∀ q' : Pager, q'.pageSize = g.pageSize → q'.sectorSize = g.sectorSize → q'.journalHdr = hdr →
      q'.journalOff = roundUp g.sectorSize off + g.sectorSize → recordCount isHot f.length nRec q'
        = u32 ((f.length - (roundUp g.sectorSize off + g.sectorSize)) / (g.pageSize + 8)))
    (hrs : RecordsAt g f c (roundUp g.sectorSize off + g.sectorSize) rs) (hok : ∀ r ∈ rs, RecordOk g r)
    (hlt : f.length / (g.pageSize + 8) < 2 ^ 32)
    (hstale : ∀ i, segEnd g (roundUp g.sectorSize off) (rs.length + (i + 1)) ≤ f.length →
      Stale g f c (segEnd g (roundUp g.sectorSize off) (rs.length + i)))
    (hnone : ∀ e, segEnd g (roundUp g.sectorSize off) rs.length ≤ e → roundUp g.sectorSize e + g.sectorSize ≤ f.length →
      (isHot = true ∨ roundUp g.sectorSize e ≠ hdr) ∧ pread f (roundUp g.sectorSize e) 8 ≠ aJournalMagic) :
    Plays isHot f.length (fuel + 2) (R ++ rs) q := by
  have hb := g.bounds
  have hfits := hrs.fits hok hh.fits
  obtain ⟨k, hk⟩ : ∃ k, k = (f.length - (roundUp g.sectorSize off + g.sectorSize)) / (g.pageSize + 8) := ⟨_, rfl⟩
  have hle : rs.length ≤ k := by
    rw [hk, Nat.le_div_iff_mul_le (by omega)]
    omega
  have hk32 : k < 2 ^ 32 := Nat.lt_of_le_of_lt (hk ▸ Nat.div_le_div_right (Nat.sub_le _ _)) hlt
  have hmul : k * (g.pageSize + 8) ≤ f.length - (roundUp g.sectorSize off + g.sectorSize) := by
    rw [hk]
    exact Nat.div_mul_le_self _ _
  have hseg : ∀ n ≤ k, segEnd g (roundUp g.sectorSize off) n ≤ f.length := fun n hn => by
    have := Nat.mul_le_mul_right (g.pageSize + 8) hn
    have := hh.fits
    rw [segEnd]
    omega
  refine hr.round (m := k - rs.length) rs hh hfit hm ?_ hrs hok
    (hseg _ (by omega)) (fun i hi => hstale i (hseg _ (by omega))) ?_
  · intro q' h1 h2 h3 h4
    rw [hcount q' h1 h2 h3 h4, ← hk, u32, Nat.mod_eq_of_lt hk32]
    omega
  · intro e q' he hr'
    have hpos : segEnd g (roundUp g.sectorSize off) rs.length ≤ e := by
      rcases he with rfl | ⟨-, rfl⟩
      · have := Nat.mul_le_mul_right (g.pageSize + 8) (Nat.le_add_right rs.length (k - rs.length))
        rw [segEnd, segEnd]
        omega
      · exact hseg _ hle
    refine hr'.stop fun hd => hnone e hpos ?_
    rcases hd with rfl | hd
    · rw [segEnd] at hpos
      omega
    · exact hd

end Rounds

end Journal

end Btreelite
