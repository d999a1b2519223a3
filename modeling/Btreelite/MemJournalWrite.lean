import Btreelite.MemJournalRep

/-!
# The in-memory journal is a file

Writes and the spill to a real file, and with them any sequence of calls: the answers are those of an array of
bytes.
-/

namespace Btreelite

namespace MemJournal

open Prog ByteBuffer ByteFile

/-! ## Writing -/

section Write

variable {p : Jrnl} {cs : List Nat} {bs data : List UInt8} {k o a : Nat} {c : FileChunk}

theorem wp_copyIn {Q : Unit → Jrnl → Prop} {E : JrnlErr → Jrnl → Prop} (hc : p.heap a = some c) :
    wp (copyIn (some a) o data) Q E p
      ↔ Q () { p with heap := Function.update p.heap a (some { c with zChunk := store c.zChunk o data }) } := by
  rw [copyIn, wp_bind, wp_deref hc, wp_assign hc]

/-- Bytes written to chunk `k`. -/
theorem Rep.write (h : Rep p cs bs) (data : List UInt8) (ha : cs[k]? = some a) (hc : p.heap a = some c)
    (ho : o + data.length ≤ p.nChunkSize) (hoff : k * p.nChunkSize + o ≤ bs.length) :
    Rep { p with
      heap := Function.update p.heap a (some { c with zChunk := store c.zChunk o data }),
      endpoint := { p.endpoint with iOffset := (pwrite 0 bs (k * p.nChunkSize + o) data).length } }
      cs (pwrite 0 bs (k * p.nChunkSize + o) data) := by
  have hk := (List.getElem?_eq_some_iff.1 ha).1
  have hroom : k * p.nChunkSize + p.nChunkSize ≤ cs.length * p.nChunkSize := by
    rw [← Nat.succ_mul]
    exact Nat.mul_le_mul_right _ hk
  have hfits := h.fits
  have hlen := pwrite_length (z := 0) (a := data) hoff
  obtain ⟨d, hd, hnext, hz⟩ := h.chunk k a ha
  obtain rfl : c = d := Option.some.inj (hc.symm.trans hd)
  have hself : ∀ j < p.nChunkSize, k * p.nChunkSize + j < (pwrite 0 bs (k * p.nChunkSize + o) data).length →
      (pwrite 0 bs (k * p.nChunkSize + o) data)[k * p.nChunkSize + j]? = some (store c.zChunk o data j) :=
    fun j hj hlt => by
      rw [pwrite_getElem? hoff]
      by_cases hin : o ≤ j ∧ j < o + data.length
      · obtain ⟨m, rfl⟩ := Nat.exists_eq_add_of_le hin.1
        have hm : m < data.length := by omega
        rw [if_pos (by omega), store_in hm, show k * p.nChunkSize + (o + m) - (k * p.nChunkSize + o) = m by omega,
          List.getElem?_eq_getElem hm]
      · rw [if_neg (by omega), store_out (by omega)]
        exact hz j hj (by omega)
  have hother : ∀ i, i ≠ k → ∀ j < p.nChunkSize,
      i * p.nChunkSize + j < (pwrite 0 bs (k * p.nChunkSize + o) data).length →
      i * p.nChunkSize + j < bs.length
        ∧ (pwrite 0 bs (k * p.nChunkSize + o) data)[i * p.nChunkSize + j]? = bs[i * p.nChunkSize + j]? :=
    fun i hik j hj hlt => by
      have hside : i * p.nChunkSize + p.nChunkSize ≤ k * p.nChunkSize ∨ k * p.nChunkSize + p.nChunkSize ≤ i * p.nChunkSize := by
        rw [← Nat.succ_mul, ← Nat.succ_mul]
        exact (Nat.lt_or_gt_of_ne hik).imp (fun h => Nat.mul_le_mul_right _ h) fun h => Nat.mul_le_mul_right _ h
      rw [pwrite_getElem? hoff, if_neg (by omega)]
      exact ⟨by omega, rfl⟩
  have hfits' : (pwrite 0 bs (k * p.nChunkSize + o) data).length ≤ cs.length * p.nChunkSize := by omega
  refine ⟨h.pos, h.nodup, h.old, h.first, fun i b hb => ?_, rfl, h.last, hfits', h.read⟩
  by_cases hbk : i = k
  · subst hbk
    obtain rfl : a = b := Option.some.inj (ha.symm.trans hb)
    refine ⟨{ c with zChunk := store c.zChunk o data }, ?_, hnext, hself⟩
    dsimp only
    rw [Function.update_self]
  · have hne : b ≠ a := by
      rintro rfl
      exact hbk (index_inj h.nodup hb ha)
    obtain ⟨d, hd, hnext, hz⟩ := h.chunk i b hb
    refine ⟨d, ?_, hnext, fun j hj hlt => ?_⟩
    · dsimp only
      rw [Function.update_of_ne hne, hd]
    · obtain ⟨hin, heq⟩ := hother i hbk j hj hlt
      exact heq.trans (hz j hj hin)

/-- The list with a new chunk at its end. -/
theorem Rep.extend (h : Rep p cs bs) (hfull : bs.length = cs.length * p.nChunkSize) {pFirst : Option Nat}
    {heap : Nat → Option FileChunk} {z : Nat → UInt8} (hfirst : pFirst = (cs ++ [p.nAlloc])[0]?)
    (hnew : heap p.nAlloc = some { pNext := none, zChunk := z })
    (hlink : ∀ i b, cs[i]? = some b → ∀ c, p.heap b = some c →
      heap b = some { c with pNext := (cs ++ [p.nAlloc])[i + 1]? }) :
    Rep { p with
      pFirst := pFirst, heap := heap, nAlloc := p.nAlloc + 1,
      endpoint := { p.endpoint with pChunk := some p.nAlloc } } (cs ++ [p.nAlloc]) bs := by
  have hfresh : p.nAlloc ∉ cs := fun hmem => Nat.lt_irrefl _ (h.old _ hmem)
  have hnodup : (cs ++ [p.nAlloc]).Nodup := by
    rw [List.nodup_append]
    refine ⟨h.nodup, List.nodup_singleton _, fun a ha b hb => ?_⟩
    rw [List.mem_singleton.1 hb]
    rintro rfl
    exact hfresh ha
  have hlen : (cs ++ [p.nAlloc]).length = cs.length + 1 := by rw [List.length_append, List.length_singleton]
  have hat : (cs ++ [p.nAlloc])[cs.length]? = some p.nAlloc := by
    rw [List.getElem?_append_right le_rfl, Nat.sub_self]
    rfl
  refine ⟨h.pos, hnodup, fun a ha => ?_, hfirst, fun i b hb => ?_, h.size, ?_, ?_, ?_⟩
  · rcases List.mem_append.1 ha with ha | ha
    · exact Nat.lt_succ_of_lt (h.old a ha)
    · rw [List.mem_singleton.1 ha]
      exact Nat.lt_succ_self _
  · rcases Nat.lt_or_ge i cs.length with hi | hi
    · rw [List.getElem?_append_left hi] at hb
      obtain ⟨c, hc, -, hz⟩ := h.chunk i b hb
      exact ⟨_, hlink i b hb c hc, rfl, hz⟩
    · have hlt := (List.getElem?_eq_some_iff.1 hb).1
      obtain rfl : i = cs.length := by omega
      obtain rfl : p.nAlloc = b := Option.some.inj (hat.symm.trans hb)
      refine ⟨_, hnew, (List.getElem?_eq_none (by omega)).symm, fun j hj hlt => ?_⟩
      dsimp only at hlt
      omega
  · rw [hlen, Nat.add_sub_cancel, hat]
  · rw [hlen, Nat.succ_mul]
    dsimp only
    omega
  · refine h.read.imp_right fun hr => ⟨?_, hr.2⟩
    have hlt : p.readpoint.iOffset / p.nChunkSize < cs.length := by
      by_contra hge
      exact hr.2 (hr.1.trans (List.getElem?_eq_none (by omega)))
    rw [List.getElem?_append_left hlt]
    exact hr.1

theorem newChunk_wp (h : Rep p cs bs) (hfull : bs.length = cs.length * p.nChunkSize) :
    wp newChunk (fun _ p' => Rep p' (cs ++ [p.nAlloc]) bs ∧ p'.nChunkSize = p.nChunkSize ∧ p'.nSpill = p.nSpill)
      (fun _ _ => False) p := by
  have hfresh : p.nAlloc ∉ cs := fun hmem => Nat.lt_irrefl _ (h.old _ hmem)
  rw [newChunk, wp_bind, wp_get, wp_bind, malloc, wp_bind, wp_get, wp_bind, wp_modify, wp_pure, wp_bind,
    wp_deref (Function.update_self _ _ _), wp_bind, wp_assign (Function.update_self _ _ _)]
  dsimp only
  rw [Function.update_idem]
  by_cases hempty : cs = []
  · subst hempty
    rw [h.last]
    dsimp only [List.getElem?_nil]
    rw [if_neg (by decide), wp_bind, wp_modify, wp_modify]
    exact ⟨h.extend hfull rfl (Function.update_self _ _ _) (by simp), rfl, rfl⟩
  · have hlen : 0 < cs.length := List.length_pos_iff.2 hempty
    have hlast : cs[cs.length - 1]? = some cs[cs.length - 1] := List.getElem?_eq_getElem (by omega)
    have hne : cs[cs.length - 1] ≠ p.nAlloc := fun he => hfresh (he ▸ List.getElem_mem _)
    obtain ⟨c, hc, -⟩ := h.chain _ _ hlast
    have hc' := (Function.update_of_ne hne (some { pNext := none, zChunk := fun _ => 170 }) p.heap).trans hc
    rw [h.last, hlast, if_pos Option.isSome_some, wp_bind, wp_deref hc', wp_bind, wp_assign hc', wp_modify]
    refine ⟨h.extend (z := fun _ => 170) hfull ?_ ?_ fun i b hb d hd => ?_, rfl, rfl⟩
    · rw [List.getElem?_append_left hlen]
      exact h.first
    · dsimp only
      rw [Function.update_of_ne hne.symm, Function.update_self]
    · have hi := (List.getElem?_eq_some_iff.1 hb).1
      by_cases hil : i = cs.length - 1
      · subst hil
        obtain rfl : cs[cs.length - 1] = b := Option.some.inj (hlast.symm.trans hb)
        obtain rfl : c = d := Option.some.inj (hc.symm.trans hd)
        dsimp only
        rw [Function.update_self, List.getElem?_append_right (by omega), show cs.length - 1 + 1 - cs.length = 0 by omega]
        rfl
      · have hb1 : b ≠ cs[cs.length - 1] := by
          rintro rfl
          exact hil (index_inj h.nodup hb hlast)
        have hb2 : b ≠ p.nAlloc := by
          rintro rfl
          exact hfresh (List.mem_of_getElem? hb)
        obtain ⟨e, he, hnext⟩ := h.chain i b hb
        obtain rfl : d = e := Option.some.inj (hd.symm.trans he)
        dsimp only
        rw [Function.update_of_ne hb1, Function.update_of_ne hb2, hd, List.getElem?_append_left (by omega), ← hnext]

/-- The number of chunks. -/
theorem Rep.length_eq (h : Rep p cs bs) (ht : Tight p cs bs) :
    cs.length = if bs.length % p.nChunkSize = 0 then bs.length / p.nChunkSize else bs.length / p.nChunkSize + 1 := by
  have hpos := h.pos
  have hfits := h.fits
  have hdiv := Nat.div_add_mod bs.length p.nChunkSize
  have hmod := Nat.mod_lt bs.length hpos
  rw [Nat.mul_comm] at hdiv
  rw [Tight] at ht
  split_ifs with h0
  · have h1 : cs.length < bs.length / p.nChunkSize + 1 :=
      Nat.lt_of_mul_lt_mul_right (a := p.nChunkSize) (by rw [Nat.succ_mul]; omega)
    have h2 : bs.length / p.nChunkSize ≤ cs.length := Nat.le_of_mul_le_mul_right (by omega) hpos
    omega
  · have h1 : cs.length < bs.length / p.nChunkSize + 2 :=
      Nat.lt_of_mul_lt_mul_right (a := p.nChunkSize) (by rw [Nat.succ_mul, Nat.succ_mul]; omega)
    have h2 : bs.length / p.nChunkSize < cs.length :=
      Nat.lt_of_mul_lt_mul_right (a := p.nChunkSize) (by omega)
    omega

theorem pwrite_end (bs data : List UInt8) : pwrite 0 bs bs.length data = bs ++ data := by
  unfold pwrite
  split_ifs with h
  · rw [h, List.append_nil]
  · rw [List.take_length, Nat.sub_self, List.replicate_zero, List.append_nil, List.drop_eq_nil_of_le (by omega),
      List.append_nil]

/-- One round of the loop, once there is room in the last chunk. -/
theorem fillChunk_wp {q : Nat} (h : Rep p cs bs) (data : List UInt8) (hlen : cs.length = q + 1) (hsize : bs.length = q * p.nChunkSize + o)
    (ho : o + data.length ≤ p.nChunkSize) (hdata : 0 < data.length) :
    wp (copyIn p.endpoint.pChunk o data) (fun _ p' =>
      Rep { p' with endpoint := { p'.endpoint with iOffset := p'.endpoint.iOffset + data.length } } cs (bs ++ data)
      ∧ Tight p' cs (bs ++ data) ∧ p'.nChunkSize = p.nChunkSize ∧ p'.nSpill = p.nSpill) (fun _ _ => False) p := by
  have hq := List.getElem?_eq_getElem (l := cs) (i := q) (by omega)
  obtain ⟨c, hc, -⟩ := h.chain _ _ hq
  have hw := h.write data hq hc ho (by omega)
  rw [← hsize, pwrite_end, List.length_append] at hw
  have htight : cs.length * p.nChunkSize < (bs ++ data).length + p.nChunkSize := by
    rw [hlen, Nat.succ_mul, List.length_append]
    omega
  rw [h.last, hlen, Nat.add_sub_cancel, hq, wp_copyIn hc]
  refine ⟨?_, htight, rfl, rfl⟩
  dsimp only
  rw [h.size]
  exact hw

theorem appendChunks_wp : ∀ {fuel : Nat} {data : List UInt8} {p : Jrnl} {cs : List Nat} {bs : List UInt8},
    Rep p cs bs → Tight p cs bs → data.length < fuel →
    wp (appendChunks fuel data) (fun _ p' => (∃ cs', Rep p' cs' (bs ++ data) ∧ Tight p' cs' (bs ++ data))
      ∧ p'.nChunkSize = p.nChunkSize ∧ p'.nSpill = p.nSpill) (fun _ _ => False) p := by
  intro fuel
  induction fuel with
  | zero => exact fun _ _ hlt => absurd hlt (Nat.not_lt_zero _)
  | succ fuel ih =>
    intro data p cs bs h ht hlt
    have hpos := h.pos
    have hmod := Nat.mod_lt bs.length hpos
    have hdiv := Nat.div_add_mod bs.length p.nChunkSize
    have hlen := h.length_eq ht
    rw [Nat.mul_comm] at hdiv
    cases data with
    | nil =>
      rw [appendChunks, wp_pure, List.append_nil]
      exact ⟨⟨cs, h, ht⟩, rfl, rfl⟩
    | cons x xs =>
      have hdata : 0 < (x :: xs).length := Nat.succ_pos _
      generalize x :: xs = data at hdata hlt
      have hfirst : appendChunks (fuel + 1) data = (do
          let p ← get
          let iChunkOffset := p.endpoint.iOffset % p.nChunkSize
          let iSpace := min data.length (p.nChunkSize - iChunkOffset)
          if iChunkOffset = 0 then newChunk
          copyIn (← get).endpoint.pChunk iChunkOffset (data.take iSpace)
          modify fun p => { p with endpoint := { p.endpoint with iOffset := p.endpoint.iOffset + iSpace } }
          appendChunks fuel (data.drop iSpace)) := by
        cases data with
        | nil => exact absurd hdata (Nat.lt_irrefl 0)
        | cons x xs => rfl
      -- The rest of the round, from a state whose last chunk has room.
      have hround : ∀ {p1 : Jrnl} {cs1 : List Nat}, Rep p1 cs1 bs → cs1.length = bs.length / p.nChunkSize + 1 →
          p1.nChunkSize = p.nChunkSize → p1.nSpill = p.nSpill →
          wp (do
            copyIn (← get).endpoint.pChunk (bs.length % p.nChunkSize)
              (data.take (min data.length (p.nChunkSize - bs.length % p.nChunkSize)))
            modify fun p1 => { p1 with
              endpoint := { p1.endpoint with
                iOffset := p1.endpoint.iOffset + min data.length (p.nChunkSize - bs.length % p.nChunkSize) } }
            appendChunks fuel (data.drop (min data.length (p.nChunkSize - bs.length % p.nChunkSize))))
            (fun _ p' => (∃ cs', Rep p' cs' (bs ++ data) ∧ Tight p' cs' (bs ++ data))
              ∧ p'.nChunkSize = p.nChunkSize ∧ p'.nSpill = p.nSpill) (fun _ _ => False) p1 := by
        intro p1 cs1 h1 hlen1 hn1 hs1
        generalize hk : min data.length (p.nChunkSize - bs.length % p.nChunkSize) = k
        have htake : (data.take k).length = k := by
          rw [List.length_take]
          omega
        have hfill := fillChunk_wp (o := bs.length % p.nChunkSize) h1 (data.take k) hlen1 (by rw [hn1]; omega)
          (by rw [hn1, htake]; omega) (by omega)
        rw [wp_bind, wp_get, wp_bind]
        refine hfill.post ?_
        rintro _ p2 ⟨hrep, htight, hn2, hs2⟩
        rw [htake] at hrep
        rw [wp_bind, wp_modify]
        refine (ih hrep htight (by rw [List.length_drop]; omega)).post ?_
        rintro _ p3 ⟨⟨cs3, h3⟩, hn3, hs3⟩
        rw [List.append_assoc, List.take_append_drop] at h3
        exact ⟨⟨cs3, h3⟩, hn3.trans (hn2.trans hn1), hs3.trans (hs2.trans hs1)⟩
      rw [hfirst, wp_bind, wp_get]
      dsimp only
      rw [h.size]
      by_cases h0 : bs.length % p.nChunkSize = 0
      · rw [if_pos h0] at hlen
        rw [if_pos h0, wp_bind]
        refine (newChunk_wp h (by rw [hlen]; omega)).post ?_
        rintro _ p1 ⟨h1, hn1, hs1⟩
        exact hround h1 (by rw [List.length_append, hlen]; rfl) hn1 hs1
      · rw [if_neg h0] at hlen
        rw [if_neg h0]
        exact hround h hlen rfl rfl

/-- What a write in memory leaves. A write at an earlier offset, which comes after a rollback, drops what stood
behind it; only the beginning of the file is written again in place. -/
def written (bs : List UInt8) (iOfst : Nat) (zBuf : List UInt8) : List UInt8 :=
  pwrite 0 (if iOfst = 0 then bs else bs.take iOfst) iOfst zBuf

theorem written_of_pos {iOfst : Nat} (h0 : 0 < iOfst) (hle : iOfst ≤ bs.length) :
    written bs iOfst data = bs.take iOfst ++ data := by
  have hlen : (bs.take iOfst).length = iOfst := by
    rw [List.length_take]
    omega
  have hend := pwrite_end (bs.take iOfst) data
  rw [hlen] at hend
  rw [written, if_neg (by omega), hend]

theorem memjrnlWrite_wp {iOfst : Nat} (h : Rep p cs bs) (ht : Tight p cs bs) (hle : iOfst ≤ bs.length)
    (h0 : iOfst = 0 → bs ≠ [] → data.length ≤ bs.length ∧ data.length < p.nChunkSize) :
    wp (memjrnlWrite data iOfst) (fun _ p' => (∃ cs', Rep p' cs' (written bs iOfst data)
      ∧ Tight p' cs' (written bs iOfst data)) ∧ p'.nChunkSize = p.nChunkSize ∧ p'.nSpill = p.nSpill)
      (fun _ _ => False) p := by
  rw [memjrnlWrite, wp_bind, wp_get]
  dsimp only
  rcases Nat.eq_zero_or_pos iOfst with rfl | hpos
  · have hzero : written bs 0 data = pwrite 0 bs 0 data := by rw [written, if_pos rfl]
    rw [if_neg (by omega), hzero, h.first]
    by_cases hbs : bs = []
    · subst hbs
      have hcs : cs = [] := by
        have hlen := h.length_eq ht
        rw [List.length_nil, Nat.zero_mod, if_pos rfl, Nat.zero_div] at hlen
        exact List.length_eq_zero_iff.1 hlen
      have hend := pwrite_end [] data
      rw [List.length_nil] at hend
      rw [hcs, if_neg (by simp), hend]
      exact appendChunks_wp h ht (Nat.lt_succ_self _)
    · obtain ⟨hin, hchunk⟩ := h0 rfl hbs
      obtain ⟨a, ha⟩ := h.exists_chunk (i := 0) (by
        rw [Nat.zero_mul]
        exact List.length_pos_iff.2 hbs)
      obtain ⟨c, hc, -⟩ := h.chain _ _ ha
      have hw := h.write (o := 0) data ha hc (by omega) (by omega)
      have hsame : (pwrite 0 bs 0 data).length = bs.length := by
        rw [pwrite_length (Nat.zero_le _)]
        omega
      rw [Nat.zero_mul, Nat.zero_add, hsame, ← h.size] at hw
      rw [ha, if_pos ⟨rfl, rfl⟩, wp_copyIn hc]
      refine ⟨⟨cs, hw, ?_⟩, rfl, rfl⟩
      rw [Tight, hsame]
      exact ht
  · rw [written_of_pos hpos hle]
    by_cases hend : iOfst = bs.length
    · rw [if_neg (by rw [h.size]; omega), if_neg (by omega), hend, List.take_length]
      exact appendChunks_wp h ht (Nat.lt_succ_self _)
    · rw [if_pos (by rw [h.size]; omega), wp_bind]
      refine (memjrnlTruncate_wp h ht hle).post ?_
      rintro _ p1 ⟨⟨cs1, h1, ht1⟩, hn1, hs1⟩
      rw [if_neg (by omega)]
      refine (appendChunks_wp h1 ht1 (Nat.lt_succ_self _)).post ?_
      rintro _ p2 ⟨h2, hn2, hs2⟩
      exact ⟨h2, hn2.trans hn1, hs2.trans hs1⟩

end Write

/-! ## The spill -/

section Spill

variable {p : Jrnl} {cs : List Nat} {bs : List UInt8}

/-- The file behind the first `i` chunks. -/
theorem Rep.writeChunks (h : Rep p cs bs) (ht : Tight p cs bs) (ok : Nat → Bool) :
    ∀ (fuel i nChunk iOff : Nat), cs.length ≤ i + fuel → i ≤ cs.length →
    (i < cs.length → nChunk = p.nChunkSize ∧ iOff = i * p.nChunkSize) →
    wp (writeChunks ok fuel i cs[i]? nChunk iOff (bs.take (i * p.nChunkSize))) (fun res p' => p' = p
      ∧ (res.2 = true ↔ ∀ j, i ≤ j → j < cs.length → ok j = true) ∧ (res.2 = true → res.1 = bs))
      (fun _ _ => False) p := by
  intro fuel
  have hdone : ∀ {fuel i nChunk iOff : Nat}, cs.length = i →
      wp (MemJournal.writeChunks ok fuel i cs[i]? nChunk iOff (bs.take (i * p.nChunkSize))) (fun res p' => p' = p
        ∧ (res.2 = true ↔ ∀ j, i ≤ j → j < cs.length → ok j = true) ∧ (res.2 = true → res.1 = bs))
        (fun _ _ => False) p := by
    intro fuel i nChunk iOff hi
    rw [List.getElem?_eq_none (by omega), MemJournal.writeChunks, wp_pure, ← hi, List.take_of_length_le h.fits]
    exact ⟨rfl, ⟨fun _ j h1 h2 => by omega, fun _ => rfl⟩, fun _ => rfl⟩
  induction fuel with
  | zero => exact fun _ _ _ hlen hi _ => hdone (by omega)
  | succ fuel ih =>
    intro i nChunk iOff hlen hi hnext
    rcases Nat.lt_or_eq_of_le hi with hlt | heq
    · obtain ⟨rfl, rfl⟩ := hnext hlt
      have ha := List.getElem?_eq_getElem hlt
      obtain ⟨c, hc, hcn⟩ := h.chain _ _ ha
      have hroom : i * p.nChunkSize + p.nChunkSize ≤ cs.length * p.nChunkSize := by
        rw [← Nat.succ_mul]
        exact Nat.mul_le_mul_right _ hlt
      have hlast : i + 1 < cs.length → i * p.nChunkSize + p.nChunkSize < bs.length := fun h2 => by
        have := Nat.mul_le_mul_right p.nChunkSize h2
        rw [Nat.succ_mul, Nat.succ_mul] at this
        rw [Tight] at ht
        omega
      have hlo : i * p.nChunkSize < bs.length := by
        rw [Tight] at ht
        omega
      rw [ha, MemJournal.writeChunks, wp_bind, wp_get]
      dsimp only
      rw [wp_bind, wp_deref hc, h.size]
      generalize hk : (if bs.length < i * p.nChunkSize + p.nChunkSize then bs.length - i * p.nChunkSize
        else p.nChunkSize) = k
      have hkle : k ≤ p.nChunkSize ∧ i * p.nChunkSize + k ≤ bs.length
          ∧ (i + 1 < cs.length → k = p.nChunkSize) ∧ (k = p.nChunkSize ∨ i * p.nChunkSize + k = bs.length) := by
        split_ifs at hk with hcut
        · exact ⟨by omega, by omega, fun h2 => by have := hlast h2; omega, by omega⟩
        · exact ⟨by omega, by omega, fun _ => hk.symm, by omega⟩
      have hbytes := h.bytes_eq (n := k) (o := 0) ha hc (by omega) (by omega)
      by_cases hok : ok i = true
      · have hfile : pwrite 0 (bs.take (i * p.nChunkSize)) (i * p.nChunkSize) (bytes c.zChunk 0 k)
            = bs.take ((i + 1) * p.nChunkSize) := by
          have hlen : (bs.take (i * p.nChunkSize)).length = i * p.nChunkSize := by
            rw [List.length_take]
            omega
          have hend := pwrite_end (bs.take (i * p.nChunkSize)) (bytes c.zChunk 0 k)
          rw [hlen] at hend
          rw [hend, hbytes, Nat.add_zero, pread, ← List.take_add, Nat.succ_mul]
          rcases hkle.2.2.2 with hfull | hcut
          · rw [hfull]
          · rw [hcut, List.take_length, List.take_of_length_le (by omega)]
        rw [if_pos hok, hcn, hfile]
        refine (ih _ _ _ (by omega) hlt fun h2 => ?_).post ?_
        · rw [hkle.2.2.1 h2, Nat.succ_mul]
          exact ⟨rfl, rfl⟩
        · rintro res p' ⟨hp, hiff, hres⟩
          refine ⟨hp, hiff.trans ⟨fun hall j h1 h2 => ?_, fun hall j h1 h2 => hall j (by omega) h2⟩, hres⟩
          rcases Nat.lt_or_eq_of_le h1 with h1 | rfl
          · exact hall j h1 h2
          · exact hok
      · rw [if_neg hok, wp_pure]
        exact ⟨rfl, ⟨fun h => absurd h (by simp), fun hall => absurd (hall i le_rfl hlt) hok⟩,
          fun h => absurd h (by simp)⟩
    · exact hdone heq.symm

/-- Whether the file can be created with `m` chunks. -/
def Os.Creates (os : Os) (m : Nat) : Prop := os.opens = true ∧ ∀ i < m, os.writes i = true

instance (os : Os) (m : Nat) : Decidable (os.Creates m) := by
  unfold Os.Creates
  infer_instance

/-- The new file has the bytes of the journal; after an error the journal is as it was. -/
theorem memjrnlCreateFile_wp (h : Rep p cs bs) (ht : Tight p cs bs) (os : Os) :
    wp (memjrnlCreateFile os) (fun file _ => file = bs ∧ os.Creates cs.length)
      (fun e p' => e = .ioerr ∧ ¬ os.Creates cs.length ∧ p' = p) p := by
  rw [memjrnlCreateFile, wp_bind, wp_get]
  by_cases hopen : os.opens = false
  · rw [if_pos hopen, wp_throw]
    refine ⟨rfl, fun hc => ?_, rfl⟩
    rw [hc.1] at hopen
    exact absurd hopen (by decide)
  · have hopen' : os.opens = true := by simpa using hopen
    have hrun := h.writeChunks ht os.writes p.nAlloc 0 p.nChunkSize 0 (by have := h.length_le; omega) (Nat.zero_le _) fun _ => ⟨rfl, (Nat.zero_mul _).symm⟩
    rw [Nat.zero_mul, List.take_zero] at hrun
    rw [if_neg hopen, wp_bind, h.first]
    refine hrun.mono ?_ fun _ _ => False.elim
    rintro ⟨file, ok⟩ p' ⟨rfl, hiff, hfile⟩
    cases ok with
    | false =>
      dsimp only
      rw [if_neg (by decide), wp_throw]
      refine ⟨rfl, fun hc => ?_, rfl⟩
      exact Bool.noConfusion (hiff.2 fun j _ hj => hc.2 j hj)
    | true =>
      dsimp only
      rw [if_pos rfl, wp_bind]
      refine (memjrnlFreeChunks_wp h.nodup (fun j a _ ha => h.chain j a ha) (by
        have := h.length_le
        omega)).mono ?_ fun _ _ => False.elim
      rintro _ _ -
      exact ⟨hfile rfl, hopen', fun i hi => hiff.1 rfl i (Nat.zero_le i) hi⟩

end Spill

/-! ## Any sequence of calls -/

section Calls

variable {n : Nat} {nSpill : Int}

/-- A file as an array of bytes; `inMemory` says that the journal has not spilled yet. -/
structure Flat where
  bytes : List UInt8
  inMemory : Bool

/-- The number of chunks for `size` bytes. -/
def nChunks (n size : Nat) : Nat := if size % n = 0 then size / n else size / n + 1

def flatCall (n : Nat) (nSpill : Int) (s : Flat) : Call → Answer × Flat
  | .write zBuf iOfst os =>
    if s.inMemory = false then (.ok, { s with bytes := pwrite 0 s.bytes iOfst zBuf })
    else if 0 < nSpill ∧ nSpill < zBuf.length + iOfst then
      if os.Creates (nChunks n s.bytes.length) then
        (.ok, { bytes := pwrite 0 s.bytes iOfst zBuf, inMemory := false })
      else (.err .ioerr, s)
    else (.ok, { s with bytes := written s.bytes iOfst zBuf })
  | .truncate size => (.ok, { s with bytes := s.bytes.take size })
  | .read iAmt iOfst => (.bytes (pread s.bytes iOfst iAmt), s)
  | .fileSize => (.size s.bytes.length, s)

/-- What the pager asks for: writes at the end, at the beginning or at an earlier offset, and reads and
truncates inside the file. The beginning that is written again in memory is a part of the first chunk. -/
def Legal (n : Nat) (nSpill : Int) (s : Flat) : Call → Prop
  | .write zBuf iOfst _ => iOfst ≤ s.bytes.length
    ∧ (s.inMemory = true → ¬ (0 < nSpill ∧ nSpill < zBuf.length + iOfst) → iOfst = 0 → s.bytes ≠ [] →
      zBuf.length ≤ s.bytes.length ∧ zBuf.length < n)
  | .truncate size => size ≤ s.bytes.length
  | .read iAmt iOfst => iAmt + iOfst ≤ s.bytes.length
  | .fileSize => True

/-- The handle stands for the array. -/
def Refines (n : Nat) (nSpill : Int) : Jfd → Flat → Prop
  | .mem p, s => s.inMemory = true ∧ p.nChunkSize = n ∧ p.nSpill = nSpill
    ∧ ∃ cs, Rep p cs s.bytes ∧ Tight p cs s.bytes
  | .real file, s => s.inMemory = false ∧ s.bytes = file

theorem runMem_refines {α : Type} {m : JrnlM α} {p : Jrnl} {s s' : Flat} {answer : α → Answer} {a : Answer}
    (hs : s.inMemory = true) (hn : p.nChunkSize = n) (hsp : p.nSpill = nSpill) (hm : s'.inMemory = s.inMemory)
    (h : wp m (fun r p' => answer r = a ∧ (∃ cs, Rep p' cs s'.bytes ∧ Tight p' cs s'.bytes)
      ∧ p'.nChunkSize = p.nChunkSize ∧ p'.nSpill = p.nSpill) (fun _ _ => False) p) :
    (runMem m answer p).1 = a ∧ Refines n nSpill (runMem m answer p).2 s' := by
  unfold wp at h
  unfold runMem
  cases hrun : m p with
  | ok r p' =>
    rw [hrun] at h
    exact ⟨h.1, hm.trans hs, h.2.2.1.trans hn, h.2.2.2.trans hsp, h.2.1⟩
  | error e p' =>
    rw [hrun] at h
    exact h.elim

theorem call_refines {jfd : Jfd} {s : Flat} {c : Call} (h : Refines n nSpill jfd s) (hc : Legal n nSpill s c) :
    (call jfd c).1 = (flatCall n nSpill s c).1 ∧ Refines n nSpill (call jfd c).2 (flatCall n nSpill s c).2 := by
  cases jfd with
  | mem p =>
    obtain ⟨hs, rfl, rfl, cs, hrep, ht⟩ := h
    cases c with
    | write zBuf iOfst os =>
      have hmem : ¬ s.inMemory = false := by
        rw [hs]
        decide
      rw [call, flatCall, if_neg hmem]
      by_cases hspill : 0 < p.nSpill ∧ p.nSpill < zBuf.length + iOfst
      · rw [if_pos hspill, if_pos hspill]
        have hrun := memjrnlCreateFile_wp hrep ht os
        have hlen : cs.length = nChunks p.nChunkSize s.bytes.length := hrep.length_eq ht
        rw [hlen] at hrun
        unfold wp at hrun
        cases hf : memjrnlCreateFile os p with
        | ok file p' =>
          rw [hf] at hrun
          obtain ⟨rfl, hcr⟩ := hrun
          rw [if_pos hcr]
          exact ⟨rfl, rfl, rfl⟩
        | error e p' =>
          rw [hf] at hrun
          obtain ⟨rfl, hcr, rfl⟩ := hrun
          rw [if_neg hcr]
          exact ⟨rfl, hs, rfl, rfl, cs, hrep, ht⟩
      · rw [if_neg hspill, if_neg hspill]
        exact runMem_refines hs rfl rfl rfl ((memjrnlWrite_wp hrep ht hc.1 (hc.2 hs hspill)).post fun _ _ h => ⟨rfl, h⟩)
    | truncate size =>
      exact runMem_refines hs rfl rfl rfl ((memjrnlTruncate_wp hrep ht hc).post fun _ _ h => ⟨rfl, h⟩)
    | read iAmt iOfst =>
      refine runMem_refines hs rfl rfl rfl ((memjrnlRead_wp hrep hc).post ?_)
      rintro _ p' ⟨rfl, hrep', hn, hsp⟩
      refine ⟨rfl, ⟨cs, hrep', ?_⟩, hn, hsp⟩
      rw [Tight, hn]
      exact ht
    | fileSize =>
      refine ⟨?_, hs, rfl, rfl, cs, hrep, ht⟩
      rw [call, flatCall, hrep.size]
  | real file =>
    obtain ⟨hs, rfl⟩ := h
    cases c with
    | write zBuf iOfst os =>
      rw [flatCall, if_pos hs]
      exact ⟨rfl, hs, rfl⟩
    | truncate size => exact ⟨rfl, hs, rfl⟩
    | read iAmt iOfst =>
      rw [call, if_neg (by rw [Legal] at hc; omega)]
      exact ⟨rfl, hs, rfl⟩
    | fileSize => exact ⟨rfl, hs, rfl⟩

def answers : Jfd → List Call → List Answer
  | _, [] => []
  | jfd, c :: calls => (call jfd c).1 :: answers (call jfd c).2 calls

def flatAnswers (n : Nat) (nSpill : Int) : Flat → List Call → List Answer
  | _, [] => []
  | s, c :: calls => (flatCall n nSpill s c).1 :: flatAnswers n nSpill (flatCall n nSpill s c).2 calls

def LegalCalls (n : Nat) (nSpill : Int) : Flat → List Call → Prop
  | _, [] => True
  | s, c :: calls => Legal n nSpill s c ∧ LegalCalls n nSpill (flatCall n nSpill s c).2 calls

theorem answers_eq : ∀ {calls : List Call} {jfd : Jfd} {s : Flat}, Refines n nSpill jfd s →
    LegalCalls n nSpill s calls → answers jfd calls = flatAnswers n nSpill s calls
  | [], _, _, _, _ => rfl
  | c :: calls, jfd, s, h, hc => by
    obtain ⟨h1, h2⟩ := call_refines h hc.1
    rw [answers, flatAnswers, h1, answers_eq h2 hc.2]

/-- A journal that `sqlite3JournalOpen` opens is one of these, or the real file from the beginning. -/
theorem sqlite3JournalOpen_refines (nSpill : Int) :
    ∃ n, 0 < n ∧ ∃ inMemory, Refines n nSpill (sqlite3JournalOpen nSpill) ⟨[], inMemory⟩ := by
  unfold sqlite3JournalOpen
  split_ifs with h0 hpos
  · exact ⟨1, Nat.one_pos, false, rfl, rfl⟩
  · exact ⟨nSpill.toNat, by omega, true, rfl, rfl, rfl, [], rep_fresh (by omega) nSpill⟩
  · exact ⟨8 + 1024 - 16, by decide, true, rfl, rfl, rfl, [], rep_fresh (by decide) nSpill⟩

end Calls

end MemJournal

end Btreelite
