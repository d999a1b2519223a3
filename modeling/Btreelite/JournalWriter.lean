import Btreelite.JournalPlayback

/-!
# Writing a rollback journal

What the headers, the records and the syncs of a transaction leave in the file.
-/

namespace Btreelite

namespace Journal

open Prog ByteFile

section WriteHeader

variable {g : Sizes} {f f' : List UInt8} {zH pre : List UInt8} {n h r nRec c : ℕ} {p : Pager}

/-- The page size divides the sector size if it is smaller. -/
theorem Sizes.min_dvd (g : Sizes) : min g.pageSize g.sectorSize ∣ g.sectorSize := by
  have hb := g.bounds
  have hv := g.valid
  rw [validSizes, decide_eq_true_eq] at hv
  simp only [not_or, not_not] at hv
  obtain ⟨a, ha⟩ := (Nat.and_sub_one_eq_zero_iff_isPowerOfTwo (n := g.pageSize) (by omega)).1
    (by rw [Nat.and_comm]; exact hv.2.2.2.2.1)
  obtain ⟨b, hb⟩ := (Nat.and_sub_one_eq_zero_iff_isPowerOfTwo (n := g.sectorSize) (by omega)).1
    (by rw [Nat.and_comm]; exact hv.2.2.2.2.2)
  rcases Nat.le_total g.pageSize g.sectorSize with hle | hle
  · rw [Nat.min_eq_left hle, ha, hb]
    rw [ha, hb] at hle
    exact Nat.pow_dvd_pow 2 ((Nat.pow_le_pow_iff_right (by decide)).1 hle)
  · rw [Nat.min_eq_right hle]

theorem flatten_replicate_length : ∀ k : ℕ, (List.replicate k zH).flatten.length = k * zH.length
  | 0 => (Nat.zero_mul _).symm
  | k + 1 => by
    rw [List.replicate_succ, List.flatten_cons, List.length_append, flatten_replicate_length k, Nat.succ_mul,
      Nat.add_comm]

theorem writeHeader_eq (hz : zH.length = n) (hn : 0 < n) : ∀ (k fuel nWrite : ℕ) {p : Pager},
    p.sectorSize = nWrite + k * n → k ≤ fuel → writeHeader zH n fuel nWrite p = { p with
      jfd := pwrite 0 p.jfd p.journalOff (List.replicate k zH).flatten
      journalOff := p.journalOff + k * n }
  | 0, fuel, nWrite, p, hs, _ => by
    rw [Nat.zero_mul, Nat.add_zero] at hs
    simp only [List.replicate_zero, List.flatten_nil, pwrite_nil, Nat.zero_mul, Nat.add_zero]
    cases fuel with
    | zero => rfl
    | succ fuel => rw [writeHeader, JOURNAL_HDR_SZ, if_neg (by omega)]
  | k + 1, 0, _, _, _, hk => absurd hk (Nat.not_succ_le_zero k)
  | k + 1, fuel + 1, nWrite, p, hs, hk => by
    have hne : zH ≠ [] := List.ne_nil_of_length_pos (by omega)
    rw [Nat.succ_mul] at hs
    rw [writeHeader, JOURNAL_HDR_SZ, if_pos (by omega), writeHeader_eq hz hn k fuel _ (by dsimp only; omega) (by omega)]
    dsimp only
    rw [← hz, pwrite_append_gap hne, hz, List.replicate_succ, List.flatten_cons, Nat.succ_mul, Nat.add_assoc,
      Nat.add_comm n]

/-- The bytes of a header, read as its fields. -/
theorem header_of_bytes (hpre : pre.length = 8)
    (h28 : pread f h 28 = pre ++ words [nRec, c, g.dbOrigSize, g.sectorSize, g.pageSize]) :
    pread f h 8 = pre ∧ pread f (h + 8) 20 = words [nRec, c, g.dbOrigSize, g.sectorSize, g.pageSize] := by
  constructor
  · rw [← pread_take (n := 28) (by decide), h28, List.take_left' hpre]
  · rw [show 20 = 28 - 8 from rfl, ← pread_drop, h28, List.drop_left' hpre]

/-- The first eight bytes of a header that is written, and its count. -/
def freshMagic (p : Pager) : List UInt8 := if p.uncounted then aJournalMagic else List.replicate 8 0

def freshCount (p : Pager) : ℕ := if p.uncounted then 0xffffffff else 0

theorem freshMagic_length (p : Pager) : (freshMagic p).length = 8 := by
  rw [freshMagic]
  split_ifs <;> rfl

theorem freshCount_lt (p : Pager) : freshCount p < 2 ^ 32 := by
  rw [freshCount]
  split_ifs
  · decide
  · decide

/-- `q` is `p` with a new header at `h`. -/
structure Opened (g : Sizes) (p : Pager) (h c : ℕ) (q : Pager) : Prop where
  eq : q = { p with jfd := q.jfd, journalHdr := h, journalOff := h + g.sectorSize, cksumInit := c }
  magic : pread q.jfd h 8 = freshMagic p
  header : HeaderAt g q.jfd h (freshCount p) c
  before : ∀ i < p.journalOff, q.jfd[i]? = p.jfd[i]?
  behind : ∀ i, h + g.sectorSize ≤ i → q.jfd[i]? = p.jfd[i]?

theorem zHeader_take (hp : p.pageSize = g.pageSize) (hs : p.sectorSize = g.sectorSize) (hd : p.dbOrigSize = g.dbOrigSize) :
    (zHeader p).take 28
      = freshMagic p ++ words [freshCount p, p.cksumInit, g.dbOrigSize, g.sectorSize, g.pageSize] := by
  have happ : zHeader p = freshMagic p
      ++ words [freshCount p, p.cksumInit, g.dbOrigSize, g.sectorSize, g.pageSize]
      ++ List.replicate (min g.pageSize (JOURNAL_HDR_SZ p) - 28) 0 := by
    rw [zHeader, freshMagic, freshCount, hp, hs, hd]
    split_ifs <;> rfl
  have hlen : (freshMagic p
      ++ words [freshCount p, p.cksumInit, g.dbOrigSize, g.sectorSize, g.pageSize]).length = 28 := by
    rw [freshMagic]
    split_ifs <;> rfl
  rw [happ, List.take_left' hlen]

theorem zHeader_length (hp : p.pageSize = g.pageSize) (hs : p.sectorSize = g.sectorSize) :
    (zHeader p).length = min g.pageSize g.sectorSize := by
  have hb := g.bounds
  have h12 : (if p.uncounted then aJournalMagic ++ put4byte 0xffffffff else List.replicate 12 0).length = 12 := by
    split_ifs <;> rfl
  rw [zHeader, List.length_append, h12]
  simp only [List.length_append, put4byte_length, List.length_replicate, JOURNAL_HDR_SZ, hp, hs]
  omega

theorem writeJournalHdr_opened (hp : p.pageSize = g.pageSize) (hs : p.sectorSize = g.sectorSize)
    (hd : p.dbOrigSize = g.dbOrigSize) (hoff : p.journalOff ≤ p.jfd.length) (hr : r < 2 ^ 32)
    (hc : p.cksumInit < 2 ^ 32) :
    Opened g p (roundUp g.sectorSize p.journalOff) (if p.memory then p.cksumInit else r) (writeJournalHdr r p) := by
  have hb := g.bounds
  have hup := le_roundUp (c := p.journalOff) (show 0 < g.sectorSize by omega)
  obtain ⟨k, hk⟩ := g.min_dvd
  have hn : 0 < min g.pageSize g.sectorSize := by omega
  have hk' : g.sectorSize = 0 + k * min g.pageSize g.sectorSize := by
    rw [Nat.zero_add, Nat.mul_comm]
    exact hk
  obtain ⟨k, rfl⟩ : ∃ j, k = j + 1 := Nat.exists_eq_succ_of_ne_zero (by
    rintro rfl
    omega)
  have hH : journalHdrOffset p = roundUp g.sectorSize p.journalOff := by rw [journalHdrOffset, JOURNAL_HDR_SZ, hs]
  -- The pager with the fields of the new header.
  obtain ⟨p₁, hp₁⟩ : ∃ p₁ : Pager, p₁ = { p with
      journalHdr := journalHdrOffset p
      journalOff := journalHdrOffset p
      cksumInit := if p.memory then p.cksumInit else r } := ⟨_, rfl⟩
  have hsizes : p₁.pageSize = g.pageSize ∧ p₁.sectorSize = g.sectorSize ∧ p₁.dbOrigSize = g.dbOrigSize := by
    subst hp₁
    exact ⟨hp, hs, hd⟩
  have hwrite : writeJournalHdr r p = writeHeader (zHeader p₁) (min p₁.pageSize (JOURNAL_HDR_SZ p₁))
      (JOURNAL_HDR_SZ p₁) 0 p₁ := by
    subst hp₁
    rfl
  have hz := zHeader_length hsizes.1 hsizes.2.1
  have hbytes : (zHeader p₁).take 28 = freshMagic p ++ words [freshCount p, if p.memory then p.cksumInit else r,
      g.dbOrigSize, g.sectorSize, g.pageSize] := by
    rw [zHeader_take hsizes.1 hsizes.2.1 hsizes.2.2, hp₁]
    rfl
  rw [JOURNAL_HDR_SZ, hsizes.1, hsizes.2.1, writeHeader_eq hz hn (k + 1) g.sectorSize 0 (hsizes.2.1.trans hk')
    (by rw [hk', Nat.zero_add]; exact Nat.le_mul_of_pos_right _ hn), ← Nat.zero_add ((k + 1) * _), ← hk'] at hwrite
  have hfill : (List.replicate (k + 1) (zHeader p₁)).flatten.length = g.sectorSize := by
    rw [flatten_replicate_length, hz, Nat.mul_comm]
    exact hk.symm
  generalize hfl : (List.replicate (k + 1) (zHeader p₁)).flatten = bs at hwrite hfill
  have hbs : bs.take 28 = (zHeader p₁).take 28 := by
    rw [← hfl, List.replicate_succ, List.flatten_cons, List.take_append_of_le_length (by omega)]
  have hne : bs ≠ [] := List.ne_nil_of_length_pos (by omega)
  subst hp₁
  rw [hwrite]
  dsimp only
  rw [hH]
  have h28 := header_of_bytes (f := pwrite 0 p.jfd (roundUp g.sectorSize p.journalOff) bs) (freshMagic_length p)
    (show pread _ _ 28 = _ by rw [← pread_take (n := bs.length) (by omega), pread_pwrite, hbs, hbytes])
  refine ⟨rfl, h28.1, ⟨?_, h28.2, ?_, ?_⟩, fun i hi => ?_, fun i hi => ?_⟩
  · rw [pwrite_length_gap hne]
    omega
  · exact freshCount_lt p
  · split_ifs
    · exact hc
    · exact hr
  · exact pwrite_getElem?_of_lt (by omega) (by omega)
  · exact pwrite_getElem?_of_le (by omega)

end WriteHeader

/-! ## A file that agrees with another where the journal stands -/

section Congr

variable {g : Sizes} {f f' : List UInt8} {h nRec c e : ℕ}

theorem HeaderAt.congr (hh : HeaderAt g f h nRec c) (heq : ∀ i, h ≤ i → i < h + g.sectorSize → f'[i]? = f[i]?) :
    HeaderAt g f' h nRec c := by
  have hb := g.bounds
  have hfit := hh.fits
  refine ⟨?_, ?_, hh.nRec_lt, hh.cksum_lt⟩
  · have hlast := heq (h + g.sectorSize - 1) (by omega) (by omega)
    rw [List.getElem?_eq_getElem (l := f) (by omega)] at hlast
    have := (List.getElem?_eq_some_iff.1 hlast).1
    omega
  · rw [pread_congr fun i hi hi' => heq i (by omega) (by omega), hh.fields]

theorem RecordsAt.congr : ∀ {rs : List PgRec} {off : ℕ}, RecordsAt g f c off rs →
    (∀ i, off ≤ i → i < off + rs.length * (g.pageSize + 8) → f'[i]? = f[i]?) → RecordsAt g f' c off rs
  | [], _, _, _ => trivial
  | r :: rs, off, ⟨hr, hrs⟩, heq => by
    rw [List.length_cons, Nat.succ_mul] at heq
    refine ⟨?_, hrs.congr fun i hi hi' => heq i (by omega) (by omega)⟩
    rw [pread_congr fun i hi hi' => heq i hi (by omega), hr]

theorem RecordsAt.append {r : PgRec} : ∀ {rs : List PgRec} {off : ℕ}, RecordsAt g f c off rs →
    pread f (off + rs.length * (g.pageSize + 8)) (g.pageSize + 8) = recordBytes g c r → RecordsAt g f c off (rs ++ [r])
  | [], off, _, h => by
    rw [List.length_nil, Nat.zero_mul, Nat.add_zero] at h
    exact ⟨h, trivial⟩
  | _ :: rs, off, ⟨hr, hrs⟩, h => by
    rw [List.length_cons, Nat.succ_mul, Nat.add_comm (rs.length * _), ← Nat.add_assoc] at h
    exact ⟨hr, hrs.append h⟩

theorem SegsAt.congr : ∀ {segs : List Seg} {off : ℕ}, SegsAt g f off segs e → (∀ i < e, f'[i]? = f[i]?) →
    SegsAt g f' off segs e
  | [], _, h, _ => h
  | s :: segs, off, ⟨hm, hh, hrs, hok, hs⟩, heq => by
    have hb := g.bounds
    have hle := hs.le
    rw [segEnd] at hle
    refine ⟨?_, hh.congr fun i _ hi => heq i (by omega), hrs.congr fun i _ hi => heq i (by omega), hok, hs.congr heq⟩
    rw [pread_congr fun i _ hi => heq i (by omega), hm]

theorem SegsAt.append {s : Seg} : ∀ {segs : List Seg} {off : ℕ}, SegsAt g f off segs e →
    pread f (roundUp g.sectorSize e) 8 = aJournalMagic → HeaderAt g f (roundUp g.sectorSize e) s.2.length s.1 →
    RecordsAt g f s.1 (roundUp g.sectorSize e + g.sectorSize) s.2 → (∀ r ∈ s.2, RecordOk g r) →
    s.2.length ≤ g.dbOrigSize →
    SegsAt g f off (segs ++ [s]) (segEnd g (roundUp g.sectorSize e) s.2.length)
  | [], off, h, hm, hh, hrs, hok, hle => by
    obtain rfl : off = e := h
    exact ⟨hm, hh, hrs, ⟨hok, hle⟩, rfl⟩
  | _ :: _, _, ⟨h1, h2, h3, h4, h5⟩, hm, hh, hrs, hok, hle => ⟨h1, h2, h3, h4, h5.append hm hh hrs hok hle⟩

end Congr

section AddPage

variable {g : Sizes} {p : Pager} {pgno : ℕ} {pData : List UInt8}

/-- The three writes of a record are one. -/
theorem addPage_eq (hp : p.pageSize = g.pageSize) (hd : pData.length = g.pageSize) :
    pagerAddPageToRollbackJournal pgno pData p = { p with
      jfd := pwrite 0 p.jfd p.journalOff (recordBytes g p.cksumInit (pgno, pData))
      journalOff := p.journalOff + (g.pageSize + 8)
      nRec := p.nRec + 1
      pInJournal := p.pInJournal ++ [pgno] } := by
  have hne : put4byte pgno ≠ [] := List.cons_ne_nil _ _
  have h1 : pwrite 0 (pwrite 0 p.jfd p.journalOff (put4byte pgno)) (p.journalOff + 4) pData
      = pwrite 0 p.jfd p.journalOff (put4byte pgno ++ pData) := pwrite_append_gap hne
  have h2 : pwrite 0 (pwrite 0 p.jfd p.journalOff (put4byte pgno ++ pData)) _ (put4byte (pager_cksum p pData)) = _ :=
    pwrite_append_gap (List.append_ne_nil_of_left_ne_nil hne pData)
  rw [List.length_append, put4byte_length, hd, List.append_assoc] at h2
  rw [pagerAddPageToRollbackJournal, hp]
  rw [h1, show p.journalOff + g.pageSize + 4 = p.journalOff + (4 + g.pageSize) by omega, h2, pager_cksum, hp,
    Nat.add_comm 8]
  rfl

end AddPage

end Journal

end Btreelite
