import Btreelite.JournalWriter
import Mathlib.Data.List.Perm.Subperm

/-!
# A transaction's journal, played back

The pager journals pages and syncs the journal in any order. A rollback by the same pager plays back what the
transaction journalled, and a hot rollback after a crash what the synced headers count, unless the pager has set
`journalHdr` to a place where it wrote no header.
-/

namespace Btreelite

namespace Journal

open Prog ByteFile

inductive Op
  | write (pgno : ℕ) (pData : List UInt8)
  /-- `syncJournal(newHdr)`, with the random number for the next header -/
  | sync (newHdr : Bool) (r : ℕ)

/-- The pager with the pages it journalled, those of them that the synced headers count, and the size of the
journal at the last sync. -/
structure Hist where
  p : Pager
  written : List PgRec
  counted : List PgRec
  syncOff : ℕ

def Hist.step (h : Hist) : Op → Hist
  | .write pgno pData =>
    { h with
      p := pager_write pgno pData h.p
      written := if pgno ∉ h.written.map Prod.fst ∧ pgno ≤ h.p.dbOrigSize then h.written ++ [(pgno, pData)]
        else h.written }
  | .sync newHdr r =>
    { h with
      p := syncJournal newHdr r h.p
      counted := if h.p.noSync then h.counted else h.written
      syncOff := h.p.journalOff }

section Run

variable (g : Sizes)

/-- What the pager above it can ask of the journal. -/
def OpOk : Op → Prop
  | .write pgno pData => pgno ≠ 0 ∧ pgno ≠ PENDING_BYTE / g.pageSize + 1 ∧ pData.length = g.pageSize
  | .sync _ r => r < 2 ^ 32

/-- The pager before the transaction, with what earlier journals left in the file. -/
structure Start (p : Pager) : Prop where
  pageSize : p.pageSize = g.pageSize
  sectorSize : p.sectorSize = g.sectorSize
  dbOrigSize : p.dbOrigSize = g.dbOrigSize
  cksumInit : p.cksumInit < 2 ^ 32
  synced : p.synced = p.jfd
  noMagic : ∀ k, pread p.jfd (k * g.sectorSize) 8 ≠ aJournalMagic

/-- `journalHdr` is the place of a header, or no header has a count to update. -/
def Steady (h : Hist) : Prop := h.p.uncounted = true ∨ h.p.journalHdr ≠ h.p.journalOff

/-- A transaction that does nothing more to its journal after a sync without a new header. -/
inductive Run (p₀ : Pager) : Hist → Prop
  | start {r : ℕ} : r < 2 ^ 32 → Run p₀ ⟨pager_open_journal r p₀, [], [], 0⟩
  | step {h : Hist} {op : Op} : Run p₀ h → OpOk g op → Steady h → Run p₀ (h.step op)

/-- No bytes behind the journal have the checksum of a record. -/
def StaleFails (p₀ : Pager) (h : Hist) : Prop :=
  ∀ i, h.p.journalOff + (i + 1) * (g.pageSize + 8) ≤ p₀.jfd.length →
    Stale g p₀.jfd h.p.cksumInit (h.p.journalOff + i * (g.pageSize + 8))

/-- The next header that is read is where the pager takes its own last header to be, and it wrote none. -/
def Exposed (h : Hist) : Prop :=
  h.p.journalHdr = h.p.journalOff ∧ g.sectorSize ∣ h.p.journalOff ∧ h.p.journalOff + g.sectorSize ≤ h.p.jfd.length

/-- A crash can leave the file `f`, in which the synced headers count the pages `rs`. Behind what was synced
anything can stand, but of the place of the next header each byte is the old one or the new one. A journal without
counts ends behind one of its records. -/
inductive Crash (h : Hist) : List UInt8 → List PgRec → Prop
  | synced {f : List UInt8} : h.p.uncounted = false → (∀ i < h.syncOff, f[i]? = h.p.synced[i]?) →
      (∀ i, roundUp g.sectorSize h.syncOff ≤ i → i < roundUp g.sectorSize h.syncOff + 8 →
        f[i]? = h.p.synced[i]? ∨ f[i]? = h.p.jfd[i]?) → Crash h f h.counted
  | appended {m : ℕ} : h.p.uncounted = true → h.counted.length ≤ m →
      Crash h (h.p.jfd.take (g.sectorSize + m * (g.pageSize + 8))) (h.written.take m)

end Run

/-! ## The file of a transaction -/

section Invariant

variable (g : Sizes) (p₀ : Pager)

structure Base (h : Hist) : Prop where
  pageSize : h.p.pageSize = g.pageSize
  sectorSize : h.p.sectorSize = g.sectorSize
  dbOrigSize : h.p.dbOrigSize = g.dbOrigSize
  cksumInit : h.p.cksumInit < 2 ^ 32
  off_le : h.p.journalOff ≤ h.p.jfd.length
  stale : ∀ i, h.p.journalOff ≤ i → h.p.jfd[i]? = p₀.jfd[i]?
  inJournal : h.p.pInJournal = h.written.map Prod.fst
  nodup : (h.written.map Prod.fst).Nodup
  ok : ∀ r ∈ h.written, RecordOk g r

/-- Behind synced segments stands a header whose count is not written yet, with the records `rs`. -/
structure Filling (h : Hist) (segs : List Seg) (e : ℕ) (rs : List PgRec) : Prop where
  mode : h.p.uncounted = false
  stand : SegsAt g h.p.jfd 0 segs e
  header : HeaderAt g h.p.jfd (roundUp g.sectorSize e) 0 h.p.cksumInit
  zero : pread h.p.jfd (roundUp g.sectorSize e) 8 = List.replicate 8 0
  recs : RecordsAt g h.p.jfd h.p.cksumInit (roundUp g.sectorSize e + g.sectorSize) rs
  hdr : h.p.journalHdr = roundUp g.sectorSize e
  off : h.p.journalOff = segEnd g (roundUp g.sectorSize e) rs.length
  nRec : h.p.nRec = rs.length
  written : h.written = segs.flatMap Prod.snd ++ rs
  counted : h.counted = segs.flatMap Prod.snd
  syncOff : h.syncOff = e
  synced : ∀ i < e, h.p.synced[i]? = h.p.jfd[i]?
  behind : ∀ i, e ≤ i → h.p.synced[i]? = p₀.jfd[i]?

/-- Every segment is synced, and there is no new header. -/
structure Closed (h : Hist) (segs : List Seg) : Prop where
  mode : h.p.uncounted = false
  stand : SegsAt g h.p.jfd 0 segs h.p.journalOff
  pos : 0 < h.p.journalOff
  hdr : h.p.journalHdr = h.p.journalOff
  written : h.written = segs.flatMap Prod.snd
  counted : h.counted = segs.flatMap Prod.snd
  syncOff : h.syncOff = h.p.journalOff
  synced : h.p.synced = h.p.jfd

/-- The only header leaves the count to the reader. -/
structure Uncounted (h : Hist) : Prop where
  mode : h.p.uncounted = true
  header : HeaderAt g h.p.jfd 0 0xffffffff h.p.cksumInit
  magic : pread h.p.jfd 0 8 = aJournalMagic
  recs : RecordsAt g h.p.jfd h.p.cksumInit g.sectorSize h.written
  off : h.p.journalOff = segEnd g 0 h.written.length
  hdr : h.p.journalHdr = 0 ∨ g.sectorSize ≤ h.p.journalHdr
  hdr_le : h.p.journalHdr ≤ h.p.journalOff

inductive Shape (h : Hist) : Prop
  | filling {segs : List Seg} {e : ℕ} {rs : List PgRec} : Filling g p₀ h segs e rs → Shape h
  | closed {segs : List Seg} : Closed g h segs → Shape h
  | uncounted : Uncounted g h → Shape h

end Invariant

section Facts

variable {g : Sizes} {p₀ : Pager} {h : Hist}

theorem Base.written_le (hb : Base g p₀ h) : h.written.length ≤ g.dbOrigSize := by
  have hsub : h.written.map Prod.fst ⊆ (List.range g.dbOrigSize).map (· + 1) := fun k hk => by
    obtain ⟨r, hr, rfl⟩ := List.mem_map.1 hk
    have hr' := hb.ok r hr
    have := hr'.pos
    have := hr'.le
    exact List.mem_map.2 ⟨r.1 - 1, List.mem_range.2 (by omega), by omega⟩
  have hlen := (List.subperm_of_subset hb.nodup hsub).length_le
  rw [List.length_map, List.length_map, List.length_range] at hlen
  exact hlen

/-- Behind the journal no header begins. -/
theorem Base.noMagic (hb : Base g p₀ h) (h₀ : Start g p₀) {e : ℕ} (he : h.p.journalOff ≤ roundUp g.sectorSize e) :
    pread h.p.jfd (roundUp g.sectorSize e) 8 ≠ aJournalMagic := by
  rw [pread_congr fun i hi _ => hb.stale i (by omega)]
  obtain ⟨k, hk⟩ := dvd_roundUp (n := g.sectorSize) (c := e)
  rw [hk, Nat.mul_comm]
  exact h₀.noMagic k

theorem Base.hideNextHeader (hb : Base g p₀ h) (h₀ : Start g p₀) : hideNextHeader h.p = h.p := by
  have hup := le_roundUp (c := h.p.journalOff) (show 0 < g.sectorSize by have := g.bounds; omega)
  rw [Journal.hideNextHeader, journalHdrOffset, JOURNAL_HDR_SZ, hb.sectorSize, if_neg (hb.noMagic h₀ hup)]

theorem seg_bound (h n : ℕ) : segEnd g h (n + 1) = segEnd g h n + (g.pageSize + 8) := by
  rw [segEnd, segEnd, Nat.succ_mul, ← Nat.add_assoc]

/-- The update of a header leaves the rest of the file as it is. -/
theorem updateHeader_spec {p : Pager} {n c : ℕ} (hh : HeaderAt g p.jfd p.journalHdr n c) (hn : p.nRec < 2 ^ 32) :
    updateHeader p = { p with jfd := (updateHeader p).jfd }
      ∧ pread (updateHeader p).jfd p.journalHdr 8 = aJournalMagic
      ∧ HeaderAt g (updateHeader p).jfd p.journalHdr p.nRec c
      ∧ (∀ i < p.journalHdr, (updateHeader p).jfd[i]? = p.jfd[i]?)
      ∧ ∀ i, p.journalHdr + 12 ≤ i → (updateHeader p).jfd[i]? = p.jfd[i]? := by
  have hb := g.bounds
  have hfit := hh.fits
  have hjfd : (updateHeader p).jfd = pwrite 0 p.jfd p.journalHdr (aJournalMagic ++ put4byte p.nRec) := rfl
  have h12 : pread (updateHeader p).jfd p.journalHdr 12 = aJournalMagic ++ put4byte p.nRec := by
    rw [hjfd]
    exact pread_pwrite
  have hbehind : ∀ i, p.journalHdr + 12 ≤ i → (updateHeader p).jfd[i]? = p.jfd[i]? := fun i hi => by
    rw [hjfd]
    exact pwrite_getElem?_of_le hi
  refine ⟨rfl, ?_, ⟨?_, ?_, hn, hh.cksum_lt⟩, fun i hi => ?_, hbehind⟩
  · rw [← pread_take (n := 12) (by decide), h12]
    rfl
  · rw [hjfd]
    exact Nat.le_trans hfit pwrite_length_le
  · have hcount : pread (updateHeader p).jfd (p.journalHdr + 8) 4 = put4byte p.nRec := by
      rw [show 4 = 12 - 8 from rfl, ← pread_drop, h12]
      rfl
    have hrest : pread (updateHeader p).jfd (p.journalHdr + 12) 16
        = words [c, g.dbOrigSize, g.sectorSize, g.pageSize] := by
      rw [pread_congr fun i hi _ => hbehind i hi, show p.journalHdr + 12 = p.journalHdr + 8 + 4 by omega,
        show 16 = 20 - 4 from rfl, ← pread_drop, hh.fields]
      rfl
    rw [show 20 = 4 + 16 from rfl, pread_add, hcount, hrest]
    rfl
  · rw [hjfd]
    exact pwrite_getElem?_of_lt hi (by omega)

end Facts

/-! ## What a step leaves -/

section Steps

variable {g : Sizes} {p₀ : Pager} {h : Hist} {r : ℕ}

/-- The place of a new header, and what the pager keeps. -/
theorem Opened.fields {p q : Pager} {o c : ℕ} (ho : Opened g p o c q) :
    q.journalHdr = o ∧ q.journalOff = o + g.sectorSize ∧ q.cksumInit = c ∧ q.pageSize = p.pageSize
      ∧ q.sectorSize = p.sectorSize ∧ q.dbOrigSize = p.dbOrigSize ∧ q.uncounted = p.uncounted
      ∧ q.pInJournal = p.pInJournal ∧ q.nRec = p.nRec ∧ q.synced = p.synced := by
  rw [ho.eq]
  exact ⟨rfl, rfl, rfl, rfl, rfl, rfl, rfl, rfl, rfl, rfl⟩

theorem Opened.base {p q : Pager} {c : ℕ} {written counted : List PgRec} {s : ℕ}
    (ho : Opened g p (roundUp g.sectorSize p.journalOff) c q)
    (hb : Base g p₀ ⟨p, written, counted, s⟩) (hc : c < 2 ^ 32) : Base g p₀ ⟨q, written, counted, s⟩ := by
  obtain ⟨-, h2, h3, h4, h5, h6, -, h8, -, -⟩ := ho.fields
  have hup := le_roundUp (c := p.journalOff) (show 0 < g.sectorSize by have := g.bounds; omega)
  refine ⟨h4.trans hb.pageSize, h5.trans hb.sectorSize, h6.trans hb.dbOrigSize, ?_, ?_, fun i hi => ?_,
    h8.trans hb.inJournal, hb.nodup, hb.ok⟩
  · dsimp only
    rw [h3]
    exact hc
  · dsimp only
    rw [h2]
    exact ho.header.fits
  · dsimp only at hi ⊢
    rw [h2] at hi
    rw [ho.behind i hi]
    exact hb.stale i (by dsimp only; omega)

/-- A new header behind synced segments. -/
theorem Opened.filling (segs : List Seg) (written counted : List PgRec) {p q : Pager} {c s : ℕ}
    (ho : Opened g p (roundUp g.sectorSize p.journalOff) c q) (hm : p.uncounted = false)
    (hs : SegsAt g p.jfd 0 segs p.journalOff) (hn : p.nRec = 0) (hw : written = segs.flatMap Prod.snd)
    (hcount : counted = segs.flatMap Prod.snd) (hoff : s = p.journalOff)
    (hsync : ∀ i < p.journalOff, p.synced[i]? = p.jfd[i]?) (hbehind : ∀ i, p.journalOff ≤ i → p.synced[i]? = p₀.jfd[i]?) :
    Filling g p₀ ⟨q, written, counted, s⟩ segs p.journalOff [] := by
  obtain ⟨h1, h2, h3, -, -, -, h7, -, h9, h10⟩ := ho.fields
  have hmagic := ho.magic
  have hheader := ho.header
  rw [freshMagic, hm] at hmagic
  rw [freshCount, hm, ← h3] at hheader
  refine ⟨h7.trans hm, hs.congr ho.before, hheader, hmagic, trivial, h1, ?_, h9.trans hn, ?_, hcount, hoff,
    fun i hi => ?_, fun i hi => ?_⟩
  · dsimp only
    rw [h2, segEnd, List.length_nil, Nat.zero_mul, Nat.add_zero]
  · dsimp only
    rw [List.append_nil, hw]
  · dsimp only
    rw [h10, ho.before i hi]
    exact hsync i hi
  · dsimp only
    rw [h10]
    exact hbehind i hi

theorem start_inv (h₀ : Start g p₀) (hr : r < 2 ^ 32) :
    Base g p₀ ⟨pager_open_journal r p₀, [], [], 0⟩ ∧ Shape g p₀ ⟨pager_open_journal r p₀, [], [], 0⟩ := by
  obtain ⟨p, hp⟩ : ∃ p : Pager, p = { p₀ with nRec := 0, journalOff := 0, journalHdr := 0, pInJournal := [] } := ⟨_, rfl⟩
  have hbase : Base g p₀ ⟨p, [], [], 0⟩ := by
    subst hp
    exact ⟨h₀.pageSize, h₀.sectorSize, h₀.dbOrigSize, h₀.cksumInit, Nat.zero_le _, fun _ _ => rfl, rfl, List.nodup_nil,
      fun _ hr => absurd hr List.not_mem_nil⟩
  have hmode : p.uncounted = p₀.uncounted := by rw [hp]; rfl
  have hoff : p.journalOff = 0 := by rw [hp]
  have ho := writeJournalHdr_opened hbase.pageSize hbase.sectorSize hbase.dbOrigSize hbase.off_le hr hbase.cksumInit
  have hopen : pager_open_journal r p₀ = writeJournalHdr r p := by rw [hp]; rfl
  have hc : (if p.memory then p.cksumInit else r) < 2 ^ 32 := by
    split_ifs
    · exact hbase.cksumInit
    · exact hr
  rw [hopen]
  refine ⟨ho.base hbase hc, ?_⟩
  dsimp only at ho
  rcases hm : p.uncounted with _ | _
  · refine .filling (ho.filling [] [] [] hm hoff.symm (by rw [hp]) rfl rfl hoff.symm (fun i hi => ?_) fun i _ => ?_)
    · omega
    · subst hp
      dsimp only
      rw [h₀.synced]
  · obtain ⟨h1, h2, h3, -, -, -, h7, -, -, -⟩ := ho.fields
    have hheader := ho.header
    have hmagic := ho.magic
    rw [freshCount, hm, ← h3, hoff] at hheader
    rw [freshMagic, hm, hoff] at hmagic
    rw [hoff] at h1 h2
    refine .uncounted ⟨h7.trans hm, hheader, hmagic, trivial, ?_, Or.inl h1, ?_⟩
    · dsimp only
      rw [h2, segEnd, List.length_nil, Nat.zero_mul, Nat.add_zero]
      rfl
    · dsimp only
      rw [h1]
      exact Nat.zero_le _

/-- A page that is journalled. -/
theorem Base.write (hb : Base g p₀ h) {pgno : ℕ} {pData : List UInt8} (hok : OpOk g (.write pgno pData))
    (hnew : pgno ∉ h.written.map Prod.fst) (hle : pgno ≤ g.dbOrigSize) {p : Pager}
    (hp : p = pagerAddPageToRollbackJournal pgno pData h.p) :
    Base g p₀ { h with p := p, written := h.written ++ [(pgno, pData)] }
      ∧ pread p.jfd h.p.journalOff (g.pageSize + 8) = recordBytes g h.p.cksumInit (pgno, pData)
      ∧ ∀ i < h.p.journalOff, p.jfd[i]? = h.p.jfd[i]? := by
  rw [addPage_eq hb.pageSize hok.2.2] at hp
  have hrec : RecordOk g (pgno, pData) := ⟨hok.1, hok.2.1, hle, hok.2.2⟩
  have hlen := recordBytes_length (c := h.p.cksumInit) hrec
  have hne : recordBytes g h.p.cksumInit (pgno, pData) ≠ [] := List.ne_nil_of_length_pos (by omega)
  subst hp
  refine ⟨⟨hb.pageSize, hb.sectorSize, hb.dbOrigSize, hb.cksumInit, ?_, fun i hi => ?_, ?_, ?_, ?_⟩, ?_, fun i hi => ?_⟩
  · dsimp only
    rw [pwrite_length_gap hne, hlen]
    omega
  · dsimp only at hi ⊢
    rw [pwrite_getElem?_of_le (by omega)]
    exact hb.stale i (by omega)
  · dsimp only
    rw [hb.inJournal, List.map_append]
    rfl
  · dsimp only
    rw [List.map_append]
    exact hb.nodup.append (List.nodup_singleton pgno) (List.disjoint_singleton.2 hnew)
  · intro r hr
    rcases List.mem_append.1 hr with hr | hr
    · exact hb.ok r hr
    · rw [List.mem_singleton.1 hr]
      exact hrec
  · dsimp only
    rw [← hlen]
    exact pread_pwrite
  · dsimp only
    exact pwrite_getElem?_of_lt hi (Nat.lt_of_lt_of_le hi hb.off_le)

/-- The pager with one more record in the file `f`. -/
def Pager.added (p : Pager) (g : Sizes) (f : List UInt8) (pgno : ℕ) : Pager :=
  { p with jfd := f, journalOff := p.journalOff + (g.pageSize + 8), nRec := p.nRec + 1, pInJournal := p.pInJournal ++ [pgno] }

section Write

variable {f : List UInt8} {r : PgRec}

theorem Filling.write {segs : List Seg} {e : ℕ} {rs : List PgRec} (hf : Filling g p₀ h segs e rs)
    (hrec : pread f h.p.journalOff (g.pageSize + 8) = recordBytes g h.p.cksumInit r)
    (hbefore : ∀ i < h.p.journalOff, f[i]? = h.p.jfd[i]?) :
    Filling g p₀ { h with p := h.p.added g f r.1, written := h.written ++ [r] } segs e (rs ++ [r]) := by
  have hup := le_roundUp (c := e) (show 0 < g.sectorSize by have := g.bounds; omega)
  have hb := g.bounds
  have hoff := hf.off
  rw [segEnd] at hoff
  refine ⟨hf.mode, hf.stand.congr fun i hi => hbefore i (by omega), hf.header.congr fun i _ hi => hbefore i (by omega),
    ?_, ?_, hf.hdr, ?_, ?_, ?_, hf.counted, hf.syncOff, fun i hi => ?_, hf.behind⟩
  · dsimp only [Pager.added]
    rw [pread_congr fun i _ hi => hbefore i (by omega), hf.zero]
  · refine (hf.recs.congr fun i _ hi => hbefore i (by omega)).append ?_
    rw [← hoff, hrec]
  · dsimp only [Pager.added]
    rw [List.length_append, List.length_singleton, seg_bound, hf.off]
  · dsimp only [Pager.added]
    rw [List.length_append, List.length_singleton, hf.nRec]
  · dsimp only
    rw [hf.written, List.append_assoc]
  · dsimp only [Pager.added]
    rw [hbefore i (by omega)]
    exact hf.synced i hi

theorem Uncounted.write (hu : Uncounted g h)
    (hrec : pread f h.p.journalOff (g.pageSize + 8) = recordBytes g h.p.cksumInit r)
    (hbefore : ∀ i < h.p.journalOff, f[i]? = h.p.jfd[i]?) :
    Uncounted g { h with p := h.p.added g f r.1, written := h.written ++ [r] } := by
  have hb := g.bounds
  have hoff := hu.off
  rw [segEnd, Nat.zero_add] at hoff
  refine ⟨hu.mode, hu.header.congr fun i _ hi => hbefore i (by omega), ?_, ?_, ?_, hu.hdr, ?_⟩
  · dsimp only [Pager.added]
    rw [pread_congr fun i _ hi => hbefore i (by omega), hu.magic]
  · refine (hu.recs.congr fun i _ hi => hbefore i (by omega)).append ?_
    rw [← hoff, hrec]
  · dsimp only [Pager.added]
    rw [List.length_append, List.length_singleton, seg_bound, hu.off]
  · exact Nat.le_trans hu.hdr_le (Nat.le_add_right _ _)

end Write

theorem write_inv (hb : Base g p₀ h) (hs : Shape g p₀ h) {pgno : ℕ} {pData : List UInt8}
    (hok : OpOk g (.write pgno pData)) (hst : Steady h) :
    Base g p₀ (h.step (.write pgno pData)) ∧ Shape g p₀ (h.step (.write pgno pData)) := by
  rw [Hist.step, pager_write, hb.inJournal]
  split_ifs with hnew
  · obtain ⟨f, hf⟩ : ∃ f, f = (pagerAddPageToRollbackJournal pgno pData h.p).jfd := ⟨_, rfl⟩
    have hp : h.p.added g f pgno = pagerAddPageToRollbackJournal pgno pData h.p := by
      rw [hf, addPage_eq hb.pageSize hok.2.2]
      rfl
    obtain ⟨hb', hrec, hbefore⟩ := hb.write hok hnew.1 (by rw [← hb.dbOrigSize]; exact hnew.2) hp
    rw [← hp]
    refine ⟨hb', ?_⟩
    rcases hs with hs | hs | hs
    · exact .filling (hs.write hrec hbefore)
    · rcases hst with hm | hne
      · rw [hs.mode] at hm
        exact absurd hm Bool.false_ne_true
      · exact absurd hs.hdr hne
    · exact .uncounted (hs.write hrec hbefore)
  · exact ⟨hb, hs⟩

/-- The pager after the update of its header. -/
def Pager.counted (p : Pager) (f : List UInt8) : Pager := { p with jfd := f, synced := f, journalHdr := p.journalOff }

section Sync

variable {f : List UInt8} {segs : List Seg} {e : ℕ} {rs : List PgRec}

theorem Filling.rs_le (hf : Filling g p₀ h segs e rs) (hb : Base g p₀ h) : rs.length ≤ g.dbOrigSize := by
  have := hb.written_le
  rw [hf.written, List.length_append] at this
  omega

/-- The update of its header closes the last segment. -/
theorem Filling.sync (hf : Filling g p₀ h segs e rs) (hb : Base g p₀ h) (hp : f = (updateHeader h.p).jfd) :
    SegsAt g f 0 (segs ++ [(h.p.cksumInit, rs)]) h.p.journalOff
      ∧ (∀ i, h.p.journalOff ≤ i → f[i]? = h.p.jfd[i]?) ∧ h.p.journalOff ≤ f.length := by
  have hmax := g.max
  have hrs := hf.rs_le hb
  have hsector := g.bounds
  have hheader := hf.header
  have hoff := hf.off
  rw [← hf.hdr] at hheader
  obtain ⟨-, hmagic, hnew, hbefore, hbehind⟩ := updateHeader_spec hheader (by rw [hf.nRec]; omega)
  rw [← hp] at hmagic hnew hbefore hbehind
  rw [hf.hdr] at hmagic hnew hbefore hbehind
  rw [hf.nRec] at hnew
  have hup := le_roundUp (c := e) (show 0 < g.sectorSize by omega)
  have hok : ∀ r ∈ rs, RecordOk g r := fun r hr => hb.ok r (by rw [hf.written]; exact List.mem_append_right _ hr)
  have hrecs : RecordsAt g f h.p.cksumInit (roundUp g.sectorSize e + g.sectorSize) rs :=
    hf.recs.congr fun i hi _ => hbehind i (by omega)
  refine ⟨?_, fun i hi => hbehind i ?_, ?_⟩
  · rw [hoff]
    exact (hf.stand.congr fun i hi => hbefore i (by omega)).append hmagic hnew hrecs hok hrs
  · rw [hoff, segEnd] at hi
    omega
  · rw [hoff]
    exact hrecs.fits hok hnew.fits

theorem sync_uncounted (hu : Uncounted g h) (hb : Base g p₀ h) {newHdr : Bool} :
    Base g p₀ (h.step (.sync newHdr r)) ∧ Shape g p₀ (h.step (.sync newHdr r)) := by
  have hmode := hu.mode
  have hsize : g.sectorSize ≤ h.p.journalOff := by
    rw [hu.off, segEnd, Nat.zero_add]
    exact Nat.le_add_right _ _
  rw [Hist.step, syncJournal]
  by_cases hn : h.p.noSync = true
  · rw [if_pos hn]
    exact ⟨⟨hb.1, hb.2, hb.3, hb.4, hb.5, hb.6, hb.7, hb.8, hb.9⟩,
      .uncounted ⟨hu.1, hu.2, hu.3, hu.4, hu.5, hu.6, hu.7⟩⟩
  · rw [if_neg hn]
    by_cases hm : h.p.memory = true
    · rw [if_pos hm]
      exact ⟨⟨hb.1, hb.2, hb.3, hb.4, hb.5, hb.6, hb.7, hb.8, hb.9⟩,
        .uncounted ⟨hu.1, hu.2, hu.3, hu.4, hu.5, Or.inr hsize, Nat.le_refl _⟩⟩
    · have hs : h.p.safeAppend = true := by
        rw [Pager.uncounted, Bool.eq_false_of_not_eq_true hn, Bool.eq_false_of_not_eq_true hm] at hmode
        exact hmode
      rw [if_neg hm, if_pos hs, if_neg fun hc => hc.2 hs]
      exact ⟨⟨hb.1, hb.2, hb.3, hb.4, hb.5, hb.6, hb.7, hb.8, hb.9⟩,
        .uncounted ⟨hu.1, hu.2, hu.3, hu.4, hu.5, Or.inr hsize, Nat.le_refl _⟩⟩

theorem Filling.sync_inv (hf : Filling g p₀ h segs e rs) (hb : Base g p₀ h) (h₀ : Start g p₀) {newHdr : Bool}
    (hr : r < 2 ^ 32) : Base g p₀ (h.step (.sync newHdr r)) ∧ Shape g p₀ (h.step (.sync newHdr r)) := by
  have hmode := hf.mode
  simp only [Pager.uncounted, Bool.or_eq_false_iff] at hmode
  obtain ⟨⟨hn, hm⟩, hs⟩ := hmode
  obtain ⟨f, hp⟩ : ∃ f, f = (updateHeader h.p).jfd := ⟨_, rfl⟩
  obtain ⟨hsegs, hsame, hlen⟩ := hf.sync hb hp
  have hsector := g.bounds
  have hpos : 0 < h.p.journalOff := by
    rw [hf.off, segEnd]
    omega
  have hstale : ∀ i, h.p.journalOff ≤ i → f[i]? = p₀.jfd[i]? := fun i hi => (hsame i hi).trans (hb.stale i hi)
  have hw : h.written = (segs ++ [(h.p.cksumInit, rs)]).flatMap Prod.snd := by
    rw [hf.written, List.flatMap_append]
    simp
  have hupd : updateHeader (hideNextHeader h.p) = { h.p with jfd := f } := by
    rw [hb.hideNextHeader h₀, hp]
    rfl
  rw [Hist.step, syncJournal, hn, hm, hs]
  simp only [Bool.false_eq_true, if_false, hupd]
  split_ifs with hnew
  · obtain ⟨p, hq⟩ : ∃ p : Pager, p = { h.p.counted f with nRec := 0 } := ⟨_, rfl⟩
    have hb' : Base g p₀ ⟨p, h.written, h.written, h.p.journalOff⟩ := by
      subst hq
      exact ⟨hb.1, hb.2, hb.3, hb.4, hlen, hstale, hb.7, hb.8, hb.9⟩
    have ho := writeJournalHdr_opened hb'.pageSize hb'.sectorSize hb'.dbOrigSize hb'.off_le hr hb'.cksumInit
    have hc : (if p.memory then p.cksumInit else r) < 2 ^ 32 := by
      split_ifs
      · exact hb'.cksumInit
      · exact hr
    have hoff : p.journalOff = h.p.journalOff := by rw [hq]; rfl
    have hfill := ho.filling (segs ++ [(h.p.cksumInit, rs)]) h.written h.written (by rw [hq]; exact hf.mode) (by rw [hq]; exact hsegs) (by rw [hq]) hw hw hoff.symm
      (fun i _ => by rw [hq]; rfl) (fun i hi => by
        rw [hq]
        exact hstale i (Nat.le_trans (Nat.le_of_eq hoff.symm) hi))
    rw [hq] at ho hfill hb' hc
    exact ⟨ho.base hb' hc, .filling hfill⟩
  · exact ⟨⟨hb.1, hb.2, hb.3, hb.4, hlen, hstale, hb.7, hb.8, hb.9⟩,
      .closed ⟨hf.mode, hsegs, hpos, rfl, hw, hw, rfl, rfl⟩⟩

end Sync

theorem Run.inv (h₀ : Start g p₀) (hrun : Run g p₀ h) : Base g p₀ h ∧ Shape g p₀ h := by
  induction hrun with
  | start hr => exact start_inv h₀ hr
  | @step h op _ hok hst ih =>
    obtain ⟨hb, hs⟩ := ih
    cases op with
    | write pgno pData => exact write_inv hb hs hok hst
    | sync newHdr r =>
      rcases hs with hs | hs | hs
      · exact hs.sync_inv hb h₀ hok
      · rcases hst with hm | hne
        · rw [hs.mode] at hm
          exact absurd hm Bool.false_ne_true
        · exact absurd hs.hdr hne
      · exact sync_uncounted hs hb

end Steps

/-! ## Playing the journal back -/

section Playback

variable {g : Sizes} {p₀ : Pager} {h : Hist} {f f' : List UInt8} {c : ℕ} {R rs : List PgRec} {segs : List Seg} {e : ℕ}

theorem Stale.congr {o : ℕ} (hs : Stale g f c o) (heq : ∀ i, o ≤ i → i < o + (g.pageSize + 8) → f'[i]? = f[i]?) :
    Stale g f' c o := by
  unfold Stale
  rw [pread_congr fun i hi hi' => heq i hi (by omega), pread_congr fun i hi hi' => heq i (by omega) (by omega),
    pread_congr fun i hi hi' => heq i (by omega) (by omega)]
  exact hs

theorem Base.stale_at (hb : Base g p₀ h) (hstale : StaleFails g p₀ h) {i : ℕ}
    (hfit : h.p.journalOff + (i + 1) * (g.pageSize + 8) ≤ h.p.jfd.length) :
    Stale g h.p.jfd h.p.cksumInit (h.p.journalOff + i * (g.pageSize + 8)) := by
  rw [Nat.succ_mul] at hfit
  have hlast := hb.stale (h.p.journalOff + (i * (g.pageSize + 8) + (g.pageSize + 8)) - 1) (by omega)
  rw [List.getElem?_eq_getElem (l := h.p.jfd) (by omega)] at hlast
  have hlen := (List.getElem?_eq_some_iff.1 hlast.symm).1
  refine (hstale i ?_).congr fun j hj _ => hb.stale j (by omega)
  rw [Nat.succ_mul]
  omega

/-- A playback is its rounds from the start of the file. -/
theorem playback_of_plays {q : Pager} {isHot : Bool} (hs : 32 ≤ q.sectorSize)
    (h : ∀ q', Reading g q.jfd q.journalHdr 0 [] q' → q'.sectorSize = q.sectorSize →
      Plays isHot q.jfd.length (q.jfd.length + 2) R q') :
    wp (pager_playback isHot) (fun _ q' => q'.restored = R) (fun _ _ => False) q := by
  rw [pager_playback, wp_bind, wp_get, wp_bind, wp_modify, wp_bind]
  refine (h { q with journalOff := 0, restored := [] } ⟨rfl, rfl, rfl, rfl, hs, fun h0 => absurd rfl h0⟩ rfl).post ?_
  intro _ q' hq'
  rw [wp_modify]
  exact hq'

/-- There are rounds enough for the segments. -/
theorem SegsAt.fuel (hs : SegsAt g f 0 segs e) (he : e ≤ f.length) : ∃ k, f.length + 2 = segs.length + (k + 2) := by
  have hle := hs.le
  have hmul := Nat.mul_le_mul_left segs.length (show 1 ≤ g.sectorSize by have := g.bounds; omega)
  exact ⟨f.length - segs.length, by omega⟩

theorem SegsAt.eq_nil (hs : SegsAt g f 0 segs 0) : segs = [] := by
  have hle := hs.le
  have hb := g.bounds
  cases segs with
  | nil => rfl
  | cons s segs =>
    rw [List.length_cons, Nat.succ_mul] at hle
    omega

/-- A first segment needs room for a header. -/
theorem SegsAt.sector_le (hs : SegsAt g f 0 segs e) (hne : segs ≠ []) : g.sectorSize ≤ f.length := by
  cases segs with
  | nil => exact absurd rfl hne
  | cons s segs =>
    have := hs.2.1.fits
    omega

theorem RecordsAt.take : ∀ {rs : List PgRec} {o : ℕ} (n : ℕ), RecordsAt g f c o rs → RecordsAt g f c o (rs.take n)
  | [], _, _, _ => by
    rw [List.take_nil]
    trivial
  | _ :: _, _, 0, _ => trivial
  | _ :: _, _, n + 1, ⟨hr, hrs⟩ => ⟨hr, hrs.take n⟩

/-- The header that is not filled in yet leaves the count to the pager that wrote it. -/
theorem recordCount_filling {q : Pager} {szJ : ℕ} (hq : q.journalHdr + JOURNAL_HDR_SZ q = q.journalOff) :
    recordCount false szJ 0 q = recordsIn q (szJ - q.journalOff) := by
  rw [recordCount, if_neg (show ¬ 0 = 0xffffffff by decide), if_pos ⟨rfl, Bool.false_ne_true, hq⟩]

theorem recordCount_uncounted {q : Pager} {isHot : Bool} {szJ : ℕ} (hq : q.journalOff = JOURNAL_HDR_SZ q) :
    recordCount isHot szJ 0xffffffff q = recordsIn q (szJ - q.journalOff) := by
  rw [recordCount, if_pos rfl, hq, ite_self]

theorem Filling.plays (hf : Filling g p₀ h segs e rs) (hb : Base g p₀ h) (h₀ : Start g p₀) (hstale : StaleFails g p₀ h)
    (hlt : h.p.jfd.length / (g.pageSize + 8) < 2 ^ 32) {q : Pager} (hr : Reading g h.p.jfd h.p.journalHdr 0 [] q)
    (hq : q.sectorSize = g.sectorSize) : Plays false h.p.jfd.length (h.p.jfd.length + 2) h.written q := by
  have hsector := g.bounds
  have hup : ∀ e, e ≤ roundUp g.sectorSize e := fun e => le_roundUp (by omega)
  have hhead := hf.header.fits
  have hle := hup e
  have hoff := hf.off
  obtain ⟨k, hk⟩ := hf.stand.fuel (by omega)
  rw [hk]
  refine hr.segs (Or.inr (by rw [hf.hdr]; exact hle)) segs hf.stand (fun _ _ => by omega) fun q' hnil hr' => ?_
  rw [List.nil_append] at hr'
  rw [hf.written]
  refine hr'.rest 0 rs hf.header (fun h0 => ?_) (fun hm => ?_) (fun q'' h1 h2 h3 h4 => ?_) hf.recs
    (fun r hr => hb.ok r (by rw [hf.written]; exact List.mem_append_right _ hr)) hlt (fun i hi => ?_) fun e' he' hroom => ?_
  · have hs := hf.stand
    rw [h0] at hs hhead
    rw [hnil hs.eq_nil, hq]
    omega
  · rcases hm with hm | hm
    · exact absurd hm Bool.false_ne_true
    · exact absurd hf.hdr.symm hm
  · rw [recordCount_filling (by rw [h3, h4, JOURNAL_HDR_SZ, h2, hf.hdr]), recordsIn, JOURNAL_PG_SZ, h1, h4]
  · rw [segEnd, Nat.add_mul, ← Nat.add_assoc] at hi ⊢
    rw [segEnd] at hoff
    rw [← hoff] at hi ⊢
    exact hb.stale_at hstale hi
  · rw [← hoff] at he'
    have := hup e'
    refine ⟨Or.inr ?_, hb.noMagic h₀ (by omega)⟩
    rw [hf.hdr]
    rw [segEnd] at hoff
    omega

theorem Closed.plays (hc : Closed g h segs) (hb : Base g p₀ h) (h₀ : Start g p₀) (hex : ¬ Exposed g h) {q : Pager}
    (hr : Reading g h.p.jfd h.p.journalHdr 0 [] q) (hq : q.sectorSize = g.sectorSize) :
    Plays false h.p.jfd.length (h.p.jfd.length + 2) h.written q := by
  have hsector := g.bounds
  have hup := le_roundUp (c := h.p.journalOff) (show 0 < g.sectorSize by omega)
  obtain ⟨k, hk⟩ := hc.stand.fuel hb.off_le
  rw [hk]
  refine hr.segs (Or.inr (Nat.le_of_eq hc.hdr.symm)) segs hc.stand
    (fun hne _ => by rw [hq]; exact hc.stand.sector_le hne) fun q' _ hr' => ?_
  rw [List.nil_append, ← hc.written] at hr'
  refine hr'.stop fun hd => ⟨Or.inr fun heq => hex ?_, hb.noMagic h₀ hup⟩
  rw [hc.hdr] at heq
  rcases hd with h0 | hroom
  · exact absurd h0 (Nat.ne_of_gt hc.pos)
  · rw [heq] at hroom
    exact ⟨hc.hdr, heq ▸ dvd_roundUp, hroom⟩

/-- The journal without counts, in a file that was cut behind the record `m`. -/
theorem Uncounted.plays (hu : Uncounted g h) (hb : Base g p₀ h) (h₀ : Start g p₀) (hstale : StaleFails g p₀ h)
    (hlt : h.p.jfd.length / (g.pageSize + 8) < 2 ^ 32) {m hdr : ℕ} {isHot : Bool} {q : Pager}
    (hf : f = h.p.jfd.take (g.sectorSize + m * (g.pageSize + 8))) (hr : Reading g f hdr 0 [] q)
    (hq : q.sectorSize = g.sectorSize ∨ q.sectorSize ≤ f.length)
    (hhdr : isHot = true ∨ hdr = 0 ∨ g.sectorSize ≤ hdr ∧ hdr ≤ h.p.journalOff
      ∧ ¬ (hdr = h.p.journalOff ∧ g.sectorSize ∣ hdr ∧ hdr + g.sectorSize ≤ f.length)) :
    Plays isHot f.length (f.length + 2) (h.written.take m) q := by
  have hsector := g.bounds
  have hup : ∀ e, e ≤ roundUp g.sectorSize e := fun e => le_roundUp (by omega)
  have hzero : roundUp g.sectorSize 0 = 0 := if_pos rfl
  have hoff := hu.off
  have hoffle := hb.off_le
  rw [segEnd, Nat.zero_add] at hoff
  have hlen : f.length = min (g.sectorSize + m * (g.pageSize + 8)) h.p.jfd.length := by rw [hf, List.length_take]
  have heq : ∀ i < f.length, f[i]? = h.p.jfd[i]? := fun i hi => by
    rw [hf, List.getElem?_take, if_pos (by omega)]
  -- A cut in front of the last record leaves nothing behind the records.
  have hcut : f.length ≤ segEnd g 0 (h.written.take m).length ∨ (h.written.take m).length = h.written.length := by
    rw [List.length_take]
    rcases Nat.le_total m h.written.length with hle | hle
    · left
      rw [Nat.min_eq_left hle, segEnd]
      omega
    · exact Or.inr (Nat.min_eq_right hle)
  have hend : segEnd g 0 (h.written.take m).length ≤ f.length := by
    have := Nat.mul_le_mul_right (g.pageSize + 8) (List.length_take_le m h.written)
    have := Nat.mul_le_mul_right (g.pageSize + 8) (List.length_take_le' m h.written)
    rw [segEnd]
    omega
  have hfirst := hup 0
  rw [segEnd] at hend
  rw [← List.nil_append (h.written.take m)]
  refine hr.rest 0xffffffff (h.written.take m) (c := h.p.cksumInit) ?_ (fun _ => ?_) (fun _ => ?_) (fun q' h1 h2 _ h4 => ?_) ?_
    (fun r hr => hb.ok r (List.mem_of_mem_take hr)) (Nat.lt_of_le_of_lt (Nat.div_le_div_right (by omega)) hlt)
    (fun i hi => ?_) fun e he hroom => ?_
  · rw [hzero]
    exact hu.header.congr fun i _ hi => heq i (by omega)
  · rcases hq with hq | hq
    · omega
    · exact hq
  · rw [hzero, pread_congr fun i _ hi => heq i (by omega), hu.magic]
  · rw [recordCount_uncounted (by rw [h4, hzero, Nat.zero_add, JOURNAL_HDR_SZ, h2]), recordsIn, JOURNAL_PG_SZ, h1, h4]
  · rw [hzero, Nat.zero_add]
    exact (hu.recs.take m).congr fun i _ hi => heq i (by omega)
  · rw [hzero] at hi ⊢
    rcases hcut with hc | hc
    · rw [segEnd] at hc
      rw [segEnd, Nat.add_mul, Nat.succ_mul] at hi
      omega
    · rw [hc] at hi ⊢
      have hat : ∀ j, segEnd g 0 (h.written.length + j) = h.p.journalOff + j * (g.pageSize + 8) := fun j => by
        rw [segEnd, Nat.add_mul]
        omega
      rw [hat] at hi ⊢
      refine (hb.stale_at hstale (by omega)).congr fun j _ hj => heq j ?_
      rw [Nat.succ_mul] at hi
      omega
  · have hle := hup e
    rw [hzero] at he
    rcases hcut with hc | hc
    · omega
    · rw [hc, segEnd, Nat.zero_add, ← hoff] at he
      refine ⟨?_, ?_⟩
      · rcases hhdr with hot | rfl | ⟨hge, hle', hex⟩
        · exact Or.inl hot
        · exact Or.inr (by omega)
        · refine Or.inr fun hat => hex ⟨by omega, hat ▸ dvd_roundUp, by omega⟩
      · rw [pread_congr fun i _ hi => heq i (by omega)]
        exact hb.noMagic h₀ (by omega)

/-- Bytes of something else and zeros do not make up the magic. -/
theorem noMagic_mix {a : List UInt8} {o : ℕ} (hno : pread a o 8 ≠ aJournalMagic)
    (hmix : ∀ i, o ≤ i → i < o + 8 → f[i]? = a[i]? ∨ f[i]? = some 0) : pread f o 8 ≠ aJournalMagic := by
  intro hmagic
  refine hno (List.ext_getElem? fun i => ?_)
  have hi : (pread f o 8)[i]? = aJournalMagic[i]? := by rw [hmagic]
  rw [pread_getElem?] at hi ⊢
  have hzero : ∀ i < 8, aJournalMagic[i]? ≠ some 0 := by decide
  split_ifs at hi ⊢ with h8
  · rcases hmix (o + i) (Nat.le_add_right o i) (by omega) with he | he
    · rw [← he, hi]
    · rw [he] at hi
      exact absurd hi.symm (hzero i h8)
  · exact hi

/-- A hot rollback of synced segments. -/
theorem SegsAt.plays (hs : SegsAt g f 0 segs e) (he : e ≤ f.length ∨ segs = [])
    (hno : pread f (roundUp g.sectorSize e) 8 ≠ aJournalMagic) {hdr : ℕ} {q : Pager} (hr : Reading g f hdr 0 [] q)
    (hq : q.sectorSize = g.sectorSize ∨ q.sectorSize ≤ f.length) :
    Plays true f.length (f.length + 2) (segs.flatMap Prod.snd) q := by
  obtain ⟨k, hk⟩ : ∃ k, f.length + 2 = segs.length + (k + 2) := by
    rcases he with he | rfl
    · exact hs.fuel he
    · exact ⟨f.length, by rw [List.length_nil, Nat.zero_add]⟩
  rw [hk]
  refine hr.segs (Or.inl rfl) segs hs (fun hne _ => ?_) fun q' _ hr' => hr'.stop fun _ => ⟨Or.inl rfl, hno⟩
  have := hs.sector_le hne
  omega

theorem Crash.plays (hc : Crash g h f rs) (hb : Base g p₀ h) (hs : Shape g p₀ h) (h₀ : Start g p₀)
    (hstale : StaleFails g p₀ h) (hlt : h.p.jfd.length / (g.pageSize + 8) < 2 ^ 32) {hdr : ℕ} {q : Pager}
    (hr : Reading g f hdr 0 [] q) (hq : q.sectorSize = g.sectorSize ∨ q.sectorSize ≤ f.length) :
    Plays true f.length (f.length + 2) rs q := by
  cases hc with
  | synced hm hbelow hmix =>
    rcases hs with @⟨segs, e, rs, hs⟩ | @⟨segs, hs⟩ | hs
    · rw [hs.syncOff] at hbelow hmix
      have hup := le_roundUp (c := e) (show 0 < g.sectorSize by have := g.bounds; omega)
      have hstand := hs.stand.congr fun i hi => (hbelow i hi).trans (hs.synced i hi)
      have hsome : ∀ i, roundUp g.sectorSize e ≤ i → i < roundUp g.sectorSize e + 8 → h.p.jfd[i]? = some 0 :=
        fun i hi hi' => by
          have hj : (pread h.p.jfd (roundUp g.sectorSize e) 8)[i - roundUp g.sectorSize e]? = _ := pread_getElem? _
          rw [if_pos (by omega), Nat.add_sub_cancel' hi, hs.zero, List.getElem?_replicate, if_pos (by omega)] at hj
          exact hj.symm
      rw [hs.counted]
      refine hstand.plays ?_ (noMagic_mix (a := p₀.jfd) ?_ fun i hi hi' => ?_) hr hq
      · rcases Nat.eq_zero_or_pos e with rfl | hpos
        · exact Or.inl (Nat.zero_le _)
        · have hlast := (hbelow (e - 1) (by omega)).trans (hs.synced (e - 1) (by omega))
          have hfit := hs.header.fits
          rw [List.getElem?_eq_getElem (l := h.p.jfd) (by omega)] at hlast
          have := (List.getElem?_eq_some_iff.1 hlast).1
          exact Or.inl (by omega)
      · obtain ⟨k, hk⟩ := dvd_roundUp (n := g.sectorSize) (c := e)
        rw [hk, Nat.mul_comm]
        exact h₀.noMagic k
      · rcases hmix i hi hi' with hold | hnew
        · exact Or.inl (hold.trans (hs.behind i (by omega)))
        · exact Or.inr (hnew.trans (hsome i hi hi'))
    · rw [hs.syncOff, hs.synced] at hbelow hmix
      have hup := le_roundUp (c := h.p.journalOff) (show 0 < g.sectorSize by have := g.bounds; omega)
      rw [hs.counted]
      refine (hs.stand.congr hbelow).plays ?_ (noMagic_mix (hb.noMagic h₀ hup) fun i hi hi' => ?_) hr hq
      · have hlast := hbelow (h.p.journalOff - 1) (by have := hs.pos; omega)
        have hfit := hb.off_le
        have hpos := hs.pos
        rw [List.getElem?_eq_getElem (l := h.p.jfd) (by omega)] at hlast
        have := (List.getElem?_eq_some_iff.1 hlast).1
        exact Or.inl (by omega)
      · rcases hmix i hi hi' with heq | heq
        · exact Or.inl heq
        · exact Or.inl heq
    · rw [hs.mode] at hm
      exact absurd hm.symm Bool.false_ne_true
  | appended hm _ =>
    rcases hs with hs | hs | hs
    · rw [hs.mode] at hm
      exact absurd hm Bool.false_ne_true
    · rw [hs.mode] at hm
      exact absurd hm Bool.false_ne_true
    · exact hs.plays hb h₀ hstale hlt rfl hr hq (Or.inl rfl)

end Playback

/-- A rollback plays back the pages of the transaction, each once and in their order, and a hot rollback after a
crash those that the synced headers count. -/
theorem journal_playback (g : Sizes) {p₀ : Pager} {h : Hist} (h₀ : Start g p₀) (hrun : Run g p₀ h)
    (hstale : StaleFails g p₀ h) (hlt : h.p.jfd.length / (g.pageSize + 8) < 2 ^ 32) :
    (h.written.map Prod.fst).Nodup
      ∧ (¬ Exposed g h → wp (pager_playback false) (fun _ q => q.restored = h.written) (fun _ _ => False) h.p)
      ∧ ∀ (f : List UInt8) (rs : List PgRec) (q : Pager), Crash g h f rs → q.jfd = f → 32 ≤ q.sectorSize →
        (q.sectorSize = g.sectorSize ∨ q.sectorSize ≤ f.length) →
        wp (pager_playback true) (fun _ q' => q'.restored = rs) (fun _ _ => False) q := by
  obtain ⟨hb, hs⟩ := hrun.inv h₀
  have hsector := g.bounds
  refine ⟨hb.nodup, fun hex => playback_of_plays (g := g) (by rw [hb.sectorSize]; exact hsector.2.1) fun q' hr hq => ?_, ?_⟩
  · rw [hb.sectorSize] at hq
    rcases hs with hs | hs | hs
    · exact hs.plays hb h₀ hstale hlt hr hq
    · exact hs.plays hb h₀ hex hr hq
    · have hfull : h.p.jfd = h.p.jfd.take (g.sectorSize + h.p.jfd.length * (g.pageSize + 8)) := by
        refine (List.take_of_length_le ?_).symm
        have := Nat.le_mul_of_pos_right h.p.jfd.length (show 0 < g.pageSize + 8 by omega)
        omega
      have hall : h.written.take h.p.jfd.length = h.written := by
        refine List.take_of_length_le ?_
        have := hs.off
        have := hb.off_le
        have := Nat.le_mul_of_pos_right h.written.length (show 0 < g.pageSize + 8 by omega)
        rw [segEnd] at *
        omega
      rw [← hall]
      refine hs.plays hb h₀ hstale hlt hfull hr (Or.inl hq) ?_
      rcases hs.hdr with h0 | hge
      · exact Or.inr (Or.inl h0)
      · exact Or.inr (Or.inr ⟨hge, hs.hdr_le, fun h => hex ⟨h.1, h.1 ▸ h.2.1, h.1 ▸ h.2.2⟩⟩)
  · rintro f rs q hc rfl hq32 hq
    refine playback_of_plays (g := g) hq32 fun q' hr hq' => ?_
    rw [← hq'] at hq
    exact hc.plays hb hs h₀ hstale hlt hr hq

/-! ## A journal of one page, and one that is exposed -/

section Small

def smallSizes : Sizes := ⟨512, 32, 4, by decide, by decide⟩

/-- A pager of four pages with the journal file `f`. -/
def smallPager (f : List UInt8) : Pager where
  pageSize := 512
  sectorSize := 32
  dbSize := 4
  dbOrigSize := 4
  noSync := false
  memory := false
  safeAppend := false
  jfd := f
  synced := f
  journalOff := 0
  journalHdr := 0
  nRec := 0
  cksumInit := 0
  pInJournal := []
  restored := []

def smallStart (f : List UInt8) : Hist := ⟨pager_open_journal 0 (smallPager f), [], [], 0⟩

def zeroPage : List UInt8 := List.replicate 512 0

@[irreducible] def onePage : Hist := ((smallStart []).step (.write 1 zeroPage)).step (.sync true 5)

theorem start_small {f : List UInt8} (h : ∀ k, pread f (k * 32) 8 ≠ aJournalMagic) : Start smallSizes (smallPager f) :=
  ⟨rfl, rfl, rfl, show (0 : ℕ) < 2 ^ 32 by decide, rfl, h⟩

theorem opOk_small {k : ℕ} (h0 : k ≠ 0) (h4 : k ≤ 4) : OpOk smallSizes (.write k zeroPage) :=
  ⟨h0, Nat.ne_of_lt (Nat.lt_of_le_of_lt h4 (by decide)), List.length_replicate⟩

theorem run_onePage : Run smallSizes (smallPager []) onePage := by
  unfold onePage
  exact .step (.step (.start (by decide)) (opOk_small (by decide) (by decide)) (Or.inr (by decide +kernel)))
    (show (5 : ℕ) < 2 ^ 32 by decide) (Or.inr (by decide +kernel))

theorem stale_onePage : StaleFails smallSizes (smallPager []) onePage := fun i hi =>
  absurd hi (Nat.not_le_of_gt (Nat.add_pos_right _ (Nat.mul_pos (Nat.succ_pos i) (by decide))))

theorem start_onePage : Start smallSizes (smallPager []) := start_small fun k h => by
  rw [pread, List.drop_nil, List.take_nil] at h
  exact absurd h (by decide)

theorem small_lt {n : ℕ} (h : n < 3000) : n / (smallSizes.pageSize + 8) < 2 ^ 32 :=
  Nat.lt_of_le_of_lt (Nat.div_le_self _ _) (Nat.lt_trans h (by decide))

theorem journal_playback_onePage :
    wp (pager_playback false) (fun _ q => q.restored = onePage.written) (fun _ _ => False) onePage.p :=
  have hlen : onePage.p.jfd.length < 3000 := by decide +kernel
  have hlt : onePage.p.jfd.length / (smallSizes.pageSize + 8) < 2 ^ 32 := small_lt hlen
  have hne : onePage.p.journalHdr ≠ onePage.p.journalOff := by decide +kernel
  (journal_playback smallSizes (h := onePage) start_onePage run_onePage stale_onePage hlt).2.1 fun hex => hne hex.1

/-- An earlier journal left the record of a page behind the four records that follow, and where a header can stand
no magic but the rest of a header. -/
def oldJournal : List UInt8 :=
  List.replicate 2120 0 ++ put4byte 1 ++ put4byte 7 ++ List.replicate 16 0 ++ put4byte 1 ++ List.replicate 512 1
    ++ put4byte 9

/-- The commit has synced the journal, and fails before it is done. -/
@[irreducible] def fourPages : Hist :=
  ((((smallStart oldJournal).step (.write 1 zeroPage)).step (.write 2 zeroPage)).step (.write 3 zeroPage)).step
    (.write 4 zeroPage) |>.step (.sync false 0)

/-- The numbers of the pages that a rollback plays back. -/
def rolledBack (h : Hist) : Option (List ℕ) :=
  match pager_playback false h.p with
  | .ok _ q => some (q.restored.map Prod.fst)
  | .error _ _ => none

theorem oldJournal_noMagic (k : ℕ) : pread oldJournal (k * 32) 8 ≠ aJournalMagic := by
  have hnone : oldJournal.all (· != 0xd9) = true := by decide +kernel
  intro h
  have hmem : (0xd9 : UInt8) ∈ pread oldJournal (k * 32) 8 := by
    rw [h]
    exact List.mem_cons_self
  have hne := List.all_eq_true.1 hnone _ (List.mem_of_mem_drop (List.mem_of_mem_take hmem))
  exact absurd hne (by decide)

theorem run_fourPages : Run smallSizes (smallPager oldJournal) fourPages := by
  unfold fourPages
  exact .step (.step (.step (.step (.step (.start (by decide)) (opOk_small (by decide) (by decide))
    (Or.inr (by decide +kernel))) (opOk_small (by decide) (by decide)) (Or.inr (by decide +kernel)))
    (opOk_small (by decide) (by decide)) (Or.inr (by decide +kernel))) (opOk_small (by decide) (by decide))
    (Or.inr (by decide +kernel))) (show (0 : ℕ) < 2 ^ 32 by decide) (Or.inr (by decide +kernel))

/-- A transaction that has written the bytes `a` over the start of the file `f`, and journalled the pages `ws`. -/
def journalling (f a : List UInt8) (ws : List PgRec) : Hist :=
  ⟨{ smallPager (pwrite 0 f 0 a) with
      synced := f
      journalOff := a.length
      nRec := ws.length
      pInJournal := ws.map Prod.fst }, ws, [], 0⟩

theorem writeHeader_small {p : Pager} (h : p.sectorSize = 32) : writeHeader (zHeader p) 32 32 0 p =
    { p with jfd := pwrite 0 p.jfd p.journalOff (zHeader p), journalOff := p.journalOff + 32 } := by
  rw [writeHeader, JOURNAL_HDR_SZ, if_pos (by omega), writeHeader, JOURNAL_HDR_SZ, if_neg]
  dsimp only
  omega

theorem smallStart_eq (f : List UInt8) : smallStart f = journalling f (zHeader (smallPager f)) [] := by
  rw [smallStart, pager_open_journal, writeJournalHdr]
  exact (congrArg (fun p => (⟨p, [], [], 0⟩ : Hist)) (writeHeader_small rfl)).trans rfl

/-- A record is written behind what stands in the file. -/
theorem journalling_write {f a : List UInt8} {ws : List PgRec} {k : ℕ} (hk : k ∉ ws.map Prod.fst) (h4 : k ≤ 4) :
    (journalling f a ws).step (.write k zeroPage)
      = journalling f (a ++ recordBytes smallSizes 0 (k, zeroPage)) (ws ++ [(k, zeroPage)]) := by
  have hzero : zeroPage.length = smallSizes.pageSize := List.length_replicate
  have hlen : (recordBytes smallSizes 0 (k, zeroPage)).length = smallSizes.pageSize + 8 := by
    rw [recordBytes, List.length_append, List.length_append, hzero]
    rfl
  have hfile := pwrite_append (z := 0) (a := a) (b := recordBytes smallSizes 0 (k, zeroPage)) (Nat.zero_le f.length)
  rw [Nat.zero_add] at hfile
  rw [Hist.step, pager_write, if_pos ⟨hk, h4⟩, addPage_eq rfl hzero, if_pos ⟨hk, h4⟩, journalling, journalling,
    List.length_append, hlen, List.length_append, List.map_append, ← hfile]
  rfl

theorem fourPages_eq : fourPages = (journalling oldJournal (zHeader (smallPager oldJournal)
    ++ recordBytes smallSizes 0 (1, zeroPage) ++ recordBytes smallSizes 0 (2, zeroPage)
    ++ recordBytes smallSizes 0 (3, zeroPage) ++ recordBytes smallSizes 0 (4, zeroPage))
    [(1, zeroPage), (2, zeroPage), (3, zeroPage), (4, zeroPage)]).step (.sync false 0) := by
  unfold fourPages
  rw [smallStart_eq, journalling_write (by simp) (by decide), journalling_write (by simp) (by decide),
    journalling_write (by simp) (by decide), journalling_write (by simp) (by decide)]
  simp only [List.nil_append, List.cons_append]

theorem fourPages_file : fourPages.p.journalOff = 2112 ∧ fourPages.p.jfd.length < 3000
    ∧ fourPages.written.map Prod.fst = [1, 2, 3, 4] := by
  rw [fourPages_eq]
  decide +kernel

/-- The rollback plays back page 1 twice. -/
theorem fourPages_played : rolledBack fourPages = some [1, 2, 3, 4, 1] := by
  rw [fourPages_eq]
  decide +kernel

theorem fourPages_rolledBack : fourPages.p.journalOff = 2112 ∧ fourPages.p.jfd.length < 3000
    ∧ fourPages.written.map Prod.fst = [1, 2, 3, 4] ∧ rolledBack fourPages = some [1, 2, 3, 4, 1] :=
  ⟨fourPages_file.1, fourPages_file.2.1, fourPages_file.2.2, fourPages_played⟩

theorem stale_fourPages : StaleFails smallSizes (smallPager oldJournal) fourPages := by
  have hoff := fourPages_rolledBack.1
  have hlen : (smallPager oldJournal).jfd.length = 2664 := by decide +kernel
  have hzero : get4byte (pread oldJournal 2112 4) = 0 := by decide +kernel
  intro i hi
  rw [hoff, hlen, show smallSizes.pageSize = 512 from rfl] at hi
  obtain rfl : i = 0 := by omega
  rw [hoff]
  exact fun h0 => absurd hzero h0

/-- A rollback that ended with the pages `R` has played back their numbers. -/
theorem rolledBack_of_wp {h : Hist} {R : List PgRec}
    (hw : wp (pager_playback false) (fun _ q => q.restored = R) (fun _ _ => False) h.p) :
    rolledBack h = some (R.map Prod.fst) := by
  unfold wp at hw
  unfold rolledBack
  cases hplay : pager_playback false h.p with
  | ok a q =>
    rw [hplay] at hw
    exact congrArg (fun R => some (R.map Prod.fst)) hw
  | error e q =>
    rw [hplay] at hw
    exact hw.elim

theorem journal_playback_counterexample : ∃ (g : Sizes) (p₀ : Pager) (h : Hist), Start g p₀ ∧ Run g p₀ h
    ∧ StaleFails g p₀ h ∧ h.p.jfd.length / (g.pageSize + 8) < 2 ^ 32
    ∧ ¬ wp (pager_playback false) (fun _ q => q.restored = h.written) (fun _ _ => False) h.p := by
  obtain ⟨-, hlen, hwritten, hseen⟩ := fourPages_rolledBack
  refine ⟨smallSizes, smallPager oldJournal, fourPages, start_small oldJournal_noMagic, run_fourPages, stale_fourPages,
    small_lt hlen, fun hw => ?_⟩
  rw [rolledBack_of_wp (h := fourPages) hw, hwritten] at hseen
  exact absurd hseen (by decide)

end Small

end Journal

end Btreelite
