import Btreelite.MemJournal

/-!
# What the chunks hold

The chunks in the order of the list, and the bytes of the file cut into pieces of the size of a chunk. The
read point is a place in the list, or nowhere.
-/

namespace Btreelite

namespace MemJournal

open Prog ByteBuffer ByteFile

/-- The chunks at the addresses `cs` hold the bytes `bs`. -/
structure Rep (p : Jrnl) (cs : List Nat) (bs : List UInt8) : Prop where
  pos : 0 < p.nChunkSize
  nodup : cs.Nodup
  old : ∀ a ∈ cs, a < p.nAlloc
  first : p.pFirst = cs[0]?
  chunk : ∀ i a, cs[i]? = some a → ∃ c, p.heap a = some c ∧ c.pNext = cs[i + 1]?
    ∧ ∀ j < p.nChunkSize, i * p.nChunkSize + j < bs.length → bs[i * p.nChunkSize + j]? = some (c.zChunk j)
  size : p.endpoint.iOffset = bs.length
  last : p.endpoint.pChunk = cs[cs.length - 1]?
  fits : bs.length ≤ cs.length * p.nChunkSize
  read : p.readpoint.iOffset = 0
    ∨ p.readpoint.pChunk = cs[p.readpoint.iOffset / p.nChunkSize]? ∧ p.readpoint.pChunk ≠ none

/-- No chunk is empty. -/
def Tight (p : Jrnl) (cs : List Nat) (bs : List UInt8) : Prop := cs.length * p.nChunkSize < bs.length + p.nChunkSize

theorem rep_fresh {n : Nat} (hn : 0 < n) (nSpill : Int) : Rep (fresh n nSpill) [] [] ∧ Tight (fresh n nSpill) [] [] := by
  refine ⟨⟨hn, List.nodup_nil, by simp, rfl, by simp, rfl, rfl, Nat.zero_le _, Or.inl rfl⟩, ?_⟩
  simpa [Tight, fresh] using hn

section Memory

variable {p : Jrnl} {a : Nat} {c d : FileChunk} {E : JrnlErr → Jrnl → Prop}

theorem wp_deref {Q : FileChunk → Jrnl → Prop} (h : p.heap a = some c) : wp (deref (some a)) Q E p ↔ Q c p := by
  rw [deref, wp_bind, wp_get, h]
  exact Iff.rfl

theorem wp_assign {Q : Unit → Jrnl → Prop} (h : p.heap a = some c) :
    wp (assign (some a) d) Q E p ↔ Q () { p with heap := Function.update p.heap a (some d) } := by
  rw [assign, wp_bind, wp_deref h]
  exact Iff.rfl

end Memory

section Read

variable {p : Jrnl} {cs : List Nat} {bs : List UInt8} {i o : Nat}

theorem index_div {n : Nat} (ho : o < n) : (i * n + o) / n = i := by
  rw [Nat.mul_comm, Nat.mul_add_div (by omega), Nat.div_eq_of_lt ho, Nat.add_zero]

/-- A byte of the file is in a chunk. -/
theorem Rep.exists_chunk (h : Rep p cs bs) (hi : i * p.nChunkSize < bs.length) : ∃ a, cs[i]? = some a := by
  have hlt : i < cs.length := by
    have := h.fits
    exact Nat.lt_of_mul_lt_mul_right (a := p.nChunkSize) (by omega)
  exact ⟨_, List.getElem?_eq_getElem hlt⟩

theorem Rep.bytes_eq (h : Rep p cs bs) {a n : Nat} (ha : cs[i]? = some a) {c : FileChunk} (hc : p.heap a = some c)
    (hn : o + n ≤ p.nChunkSize) (hlt : i * p.nChunkSize + o + n ≤ bs.length) :
    bytes c.zChunk o n = pread bs (i * p.nChunkSize + o) n := by
  obtain ⟨c', hc', -, hz⟩ := h.chunk i a ha
  obtain rfl : c' = c := Option.some.inj (hc'.symm.trans hc)
  refine bytes_ext (pread_length_of_le hlt) fun j hj => ?_
  rw [pread_getElem?, if_pos hj, Nat.add_assoc]
  exact hz (o + j) (by omega) (by omega)

/-- The walk to a chunk, from chunk `i` on. -/
theorem Rep.seek (h : Rep p cs bs) {iOfst : Nat} : ∀ {fuel i : Nat}, i * p.nChunkSize ≤ iOfst →
    iOfst < fuel + i * p.nChunkSize →
    wp (seekChunk iOfst fuel cs[i]? (i * p.nChunkSize)) (fun r p' => r = cs[iOfst / p.nChunkSize]? ∧ p' = p)
      (fun _ _ => False) p
  | 0, i, hle, hlt => by omega
  | fuel + 1, i, hle, hlt => by
    have hpos := h.pos
    rw [seekChunk, wp_bind, wp_get]
    by_cases hgo : cs[i]?.isSome ∧ i * p.nChunkSize + p.nChunkSize ≤ iOfst
    · obtain ⟨a, ha⟩ := Option.isSome_iff_exists.1 hgo.1
      obtain ⟨c, hc, hnext, -⟩ := h.chunk i a ha
      rw [if_pos hgo, ha, wp_bind, wp_deref hc, hnext, ← Nat.succ_mul]
      exact h.seek (by rw [Nat.succ_mul]; omega) (by rw [Nat.succ_mul]; omega)
    · rw [if_neg hgo, wp_pure]
      refine ⟨?_, rfl⟩
      rcases Nat.lt_or_ge iOfst (i * p.nChunkSize + p.nChunkSize) with hin | hout
      · rw [show iOfst = i * p.nChunkSize + (iOfst - i * p.nChunkSize) by omega, index_div (by omega)]
      · have hnone : cs[i]? = none := Option.not_isSome_iff_eq_none.1 fun hs => hgo ⟨hs, hout⟩
        have hlen := List.getElem?_eq_none_iff.1 hnone
        have hdiv : i ≤ iOfst / p.nChunkSize := (Nat.le_div_iff_mul_le hpos).2 hle
        rw [hnone, List.getElem?_eq_none (by omega)]

theorem Rep.copyOut (h : Rep p cs bs) {n : Nat} (hn : o + n ≤ p.nChunkSize) (hle : i * p.nChunkSize + o + n ≤ bs.length)
    {Q : List UInt8 → Jrnl → Prop} {E : JrnlErr → Jrnl → Prop} :
    wp (copyOut cs[i]? o n) Q E p ↔ Q (pread bs (i * p.nChunkSize + o) n) p := by
  rw [MemJournal.copyOut]
  by_cases h0 : n = 0
  · subst h0
    rw [if_pos rfl, pread, List.take_zero]
    exact Iff.rfl
  · obtain ⟨a, ha⟩ := h.exists_chunk (i := i) (by omega)
    obtain ⟨c, hc, -⟩ := h.chunk i a ha
    rw [if_neg h0, ha, wp_bind, wp_deref hc, wp_pure, h.bytes_eq ha hc hn hle]

/-- The bytes from offset `o` of chunk `i` on, and the chunk behind them. -/
theorem Rep.copy (h : Rep p cs bs) : ∀ {fuel i o r : Nat}, r < fuel → o < p.nChunkSize →
    i * p.nChunkSize + o + r ≤ bs.length →
    wp (copyChunks fuel cs[i]? o r) (fun res p' => res.1 = pread bs (i * p.nChunkSize + o) r
      ∧ res.2 = cs[(i * p.nChunkSize + o + r) / p.nChunkSize]? ∧ p' = p) (fun _ _ => False) p
  | 0, i, o, r, hr, _, _ => by omega
  | fuel + 1, i, o, r, hr, ho, hle => by
    rw [copyChunks, wp_bind, wp_get, wp_bind, Int.toNat_natCast, h.copyOut (by omega) (by omega)]
    by_cases hin : r < p.nChunkSize - o
    · rw [if_neg (by omega), wp_pure, Nat.min_eq_left (by omega)]
      refine ⟨rfl, ?_, rfl⟩
      rw [Nat.add_assoc, index_div (by omega)]
    · obtain ⟨a, ha⟩ := h.exists_chunk (i := i) (by omega)
      obtain ⟨c, hc, hnext, -⟩ := h.chunk i a ha
      have hrest : (r : Int) - ((p.nChunkSize - o : Nat) : Int) = ((r - (p.nChunkSize - o) : Nat) : Int) := by omega
      have hstart : i * p.nChunkSize + o + (p.nChunkSize - o) = (i + 1) * p.nChunkSize + 0 := by
        rw [Nat.succ_mul]
        omega
      rw [if_pos (by omega), ha, wp_bind, wp_deref hc, hnext, Nat.min_eq_right (by omega), hrest]
      by_cases hgo : cs[i + 1]?.isSome ∧ 0 < ((r - (p.nChunkSize - o) : Nat) : Int)
      · rw [if_pos hgo, wp_bind]
        refine (h.copy (i := i + 1) (o := 0) (by omega) h.pos (by omega)).post ?_
        rintro res p' ⟨h1, h2, rfl⟩
        rw [wp_pure]
        refine ⟨?_, ?_, rfl⟩
        · dsimp only
          rw [h1, ← hstart, ← pread_add]
          congr 1
          omega
        · dsimp only
          rw [h2, ← hstart]
          congr 2
          omega
      · -- The read ends at the end of the chunk.
        have hend : r = p.nChunkSize - o := by
          by_contra hne
          obtain ⟨b, hb⟩ := h.exists_chunk (i := i + 1) (by omega)
          exact hgo ⟨by rw [hb]; rfl, by omega⟩
        rw [if_neg hgo, wp_pure]
        refine ⟨by rw [← hend], ?_, rfl⟩
        rw [hend, hstart, index_div h.pos]

theorem memjrnlRead_wp (h : Rep p cs bs) {iAmt iOfst : Nat} (hle : iAmt + iOfst ≤ bs.length) :
    wp (memjrnlRead iAmt iOfst) (fun r p' => r = pread bs iOfst iAmt ∧ Rep p' cs bs ∧ p'.nChunkSize = p.nChunkSize
      ∧ p'.nSpill = p.nSpill) (fun _ _ => False) p := by
  have hpos := h.pos
  have hat : iOfst / p.nChunkSize * p.nChunkSize + iOfst % p.nChunkSize = iOfst := by
    rw [Nat.mul_comm]
    exact Nat.div_add_mod iOfst p.nChunkSize
  have hcopy := h.copy (i := iOfst / p.nChunkSize) (r := iAmt) (Nat.lt_succ_self iAmt) (Nat.mod_lt iOfst hpos)
    (by omega)
  rw [hat] at hcopy
  have hrest : wp (do
      let x ← copyChunks (iAmt + 1) cs[iOfst / p.nChunkSize]? (iOfst % p.nChunkSize) iAmt
      modify fun p => { p with
        readpoint := { iOffset := if x.2.isSome then iOfst + iAmt else 0, pChunk := x.2 } }
      return x.1) (fun r p' => r = pread bs iOfst iAmt ∧ Rep p' cs bs ∧ p'.nChunkSize = p.nChunkSize
        ∧ p'.nSpill = p.nSpill) (fun _ _ => False) p := by
    rw [wp_bind]
    refine hcopy.post ?_
    rintro ⟨zOut, pChunk⟩ p' ⟨h1, h2, rfl⟩
    rw [wp_bind, wp_modify, wp_pure]
    refine ⟨h1, { h with read := ?_ }, rfl, rfl⟩
    dsimp only at h2 ⊢
    subst h2
    split_ifs with hs
    · refine Or.inr ⟨rfl, fun hnone => ?_⟩
      rw [hnone] at hs
      exact absurd hs (by decide)
    · exact Or.inl rfl
  rw [memjrnlRead, wp_bind, wp_get, if_neg (by rw [h.size]; omega)]
  dsimp only
  by_cases hseek : p.readpoint.iOffset ≠ iOfst ∨ iOfst = 0
  · have hwalk : wp (seekChunk iOfst (iOfst + 1) cs[0]? (0 * p.nChunkSize)) _ _ p := h.seek (by omega) (by omega)
    rw [Nat.zero_mul] at hwalk
    rw [if_pos hseek, wp_bind, h.first]
    refine hwalk.post ?_
    rintro _ p' ⟨rfl, rfl⟩
    exact hrest
  · -- The read point is the place of the read.
    obtain ⟨heq, hne⟩ := not_or.1 hseek
    rcases h.read with h0 | ⟨hr, -⟩
    · omega
    · rw [if_neg hseek, wp_bind, wp_pure, hr, not_not.1 heq]
      exact hrest

end Read

section Free

variable {p : Jrnl} {cs : List Nat} {bs : List UInt8} {i j a : Nat}

theorem index_inj (hnd : cs.Nodup) (hi : cs[i]? = some a) (hj : cs[j]? = some a) : i = j := by
  obtain ⟨hlt, rfl⟩ := List.getElem?_eq_some_iff.1 hi
  obtain ⟨hlt', he⟩ := List.getElem?_eq_some_iff.1 hj
  exact (hnd.getElem_inj_iff.1 he).symm

theorem mem_drop_iff : a ∈ cs.drop i ↔ ∃ j, i ≤ j ∧ cs[j]? = some a := by
  rw [List.mem_iff_getElem?]
  constructor
  · rintro ⟨k, hk⟩
    rw [List.getElem?_drop] at hk
    exact ⟨i + k, by omega, hk⟩
  · rintro ⟨j, hj, ha⟩
    refine ⟨j - i, ?_⟩
    rw [List.getElem?_drop, show i + (j - i) = j by omega, ha]

theorem Rep.length_le (h : Rep p cs bs) : cs.length ≤ p.nAlloc := by
  have hsub : cs ⊆ List.range p.nAlloc := fun a ha => List.mem_range.2 (h.old a ha)
  simpa using (List.subperm_of_subset h.nodup hsub).length_le

/-- The chunks from chunk `i` on are freed. -/
theorem memjrnlFreeChunks_wp (hnd : cs.Nodup) : ∀ {fuel i : Nat} {p : Jrnl},
    (∀ j a, i ≤ j → cs[j]? = some a → ∃ c, p.heap a = some c ∧ c.pNext = cs[j + 1]?) → cs.length ≤ i + fuel →
    wp (memjrnlFreeChunks fuel cs[i]?)
      (fun _ p' => p' = { p with heap := fun x => if x ∈ cs.drop i then none else p.heap x }) (fun _ _ => False) p := by
  intro fuel
  induction fuel with
  | zero =>
    intro i p _ hlen
    rw [List.getElem?_eq_none (by omega), memjrnlFreeChunks, wp_pure, List.drop_eq_nil_of_le (by omega)]
    simp
  | succ fuel ih =>
    intro i p hchain hlen
    rcases Nat.lt_or_ge i cs.length with hi | hi
    · have ha := List.getElem?_eq_getElem hi
      obtain ⟨c, hc, hnext⟩ := hchain i _ le_rfl ha
      rw [ha, memjrnlFreeChunks, wp_bind, wp_deref hc, wp_bind, free, wp_modify, hnext]
      refine (ih (i := i + 1) (fun j b hj hb => ?_) (by omega)).post ?_
      · obtain ⟨d, hd, hdn⟩ := hchain j b (by omega) hb
        have hne : b ≠ cs[i] := by
          rintro rfl
          have := index_inj hnd ha hb
          omega
        exact ⟨d, (Function.update_of_ne hne _ _).trans hd, hdn⟩
      · rintro _ _ rfl
        congr 1
        funext x
        rw [List.drop_eq_getElem_cons hi]
        simp only [List.mem_cons, Function.update_apply]
        by_cases hx : x = cs[i]
        · simp [hx]
        · simp [hx]
    · rw [List.getElem?_eq_none hi]
      simp [memjrnlFreeChunks, List.drop_eq_nil_of_le hi]

theorem Rep.chain (h : Rep p cs bs) (j a : Nat) (ha : cs[j]? = some a) :
    ∃ c, p.heap a = some c ∧ c.pNext = cs[j + 1]? := by
  obtain ⟨c, hc, hn, -⟩ := h.chunk j a ha
  exact ⟨c, hc, hn⟩

end Free

/-! ## Truncating -/

section Truncate

variable {p : Jrnl} {cs : List Nat} {bs : List UInt8} {size : Nat}

/-- The walk to the last chunk that is kept. -/
theorem Rep.truncateChunk (h : Rep p cs bs) (hle : size ≤ bs.length) : ∀ {fuel i : Nat}, i * p.nChunkSize < size →
    size ≤ fuel + i * p.nChunkSize →
    wp (truncateChunk size fuel cs[i]? (i * p.nChunkSize + p.nChunkSize)) (fun r p' => p' = p
      ∧ ∃ m, m * p.nChunkSize < size ∧ size ≤ m * p.nChunkSize + p.nChunkSize ∧ r = cs[m]?) (fun _ _ => False) p
  | 0, i, hlt, hfuel => by omega
  | fuel + 1, i, hlt, hfuel => by
    have hpos := h.pos
    obtain ⟨a, ha⟩ := h.exists_chunk (i := i) (by omega)
    obtain ⟨c, hc, hnext⟩ := h.chain i a ha
    rw [MemJournal.truncateChunk, wp_bind, wp_get]
    by_cases hgo : cs[i]?.isSome ∧ i * p.nChunkSize + p.nChunkSize < size
    · rw [if_pos hgo, ha, wp_bind, wp_deref hc, hnext, ← Nat.succ_mul]
      exact h.truncateChunk hle (by rw [Nat.succ_mul]; omega) (by rw [Nat.succ_mul]; omega)
    · rw [if_neg hgo, wp_pure]
      refine ⟨rfl, i, hlt, ?_, rfl⟩
      by_contra hout
      exact hgo ⟨by rw [ha]; rfl, by omega⟩

/-- The list cut behind chunk `m`. -/
theorem Rep.cut (h : Rep p cs bs) {m a : Nat} {c : FileChunk} (hm : m * p.nChunkSize < size)
    (hsize : size ≤ m * p.nChunkSize + p.nChunkSize) (hle : size ≤ bs.length) (ha : cs[m]? = some a)
    (hc : p.heap a = some c) :
    Rep { p with
      heap := Function.update (fun x => if x ∈ cs.drop (m + 1) then none else p.heap x) a (some { c with pNext := none }),
      endpoint := { iOffset := size, pChunk := some a }, readpoint := { iOffset := 0, pChunk := none } }
      (cs.take (m + 1)) (bs.take size) := by
  have hmlt := (List.getElem?_eq_some_iff.1 ha).1
  have hlen : (cs.take (m + 1)).length = m + 1 := by
    rw [List.length_take]
    omega
  refine ⟨h.pos, h.nodup.sublist (List.take_sublist _ _), fun b hb => h.old b (List.mem_of_mem_take hb), ?_,
    fun i b hb => ?_, ?_, ?_, ?_, Or.inl rfl⟩
  · rw [List.getElem?_take, if_pos (by omega)]
    exact h.first
  · rw [List.getElem?_take] at hb
    split_ifs at hb with hi
    obtain ⟨d, hd, hnext, hz⟩ := h.chunk i b hb
    have hbytes : ∀ j < p.nChunkSize, i * p.nChunkSize + j < (bs.take size).length →
        (bs.take size)[i * p.nChunkSize + j]? = some (d.zChunk j) := fun j hj hlt => by
      rw [List.length_take] at hlt
      rw [List.getElem?_take, if_pos (by omega)]
      exact hz j hj (by omega)
    by_cases hbm : i = m
    · subst hbm
      obtain rfl : a = b := Option.some.inj (ha.symm.trans hb)
      obtain rfl : c = d := Option.some.inj (hc.symm.trans hd)
      refine ⟨{ c with pNext := none }, ?_, (List.getElem?_eq_none (by omega)).symm, hbytes⟩
      dsimp only
      rw [Function.update_self]
    · have hne : b ≠ a := by
        rintro rfl
        exact hbm (index_inj h.nodup hb ha)
      have hkept : b ∉ cs.drop (m + 1) := fun hmem => by
        obtain ⟨j, hj, hbj⟩ := mem_drop_iff.1 hmem
        have := index_inj h.nodup hb hbj
        omega
      refine ⟨d, ?_, ?_, hbytes⟩
      · dsimp only
        rw [Function.update_of_ne hne, if_neg hkept, hd]
      · rw [hnext, List.getElem?_take, if_pos (by omega)]
  · rw [List.length_take]
    dsimp only
    omega
  · rw [hlen, List.getElem?_take, if_pos (by omega), Nat.add_sub_cancel, ha]
  · rw [hlen, List.length_take, Nat.succ_mul]
    dsimp only
    omega

theorem memjrnlTruncate_wp (h : Rep p cs bs) (ht : Tight p cs bs) (hle : size ≤ bs.length) :
    wp (memjrnlTruncate size) (fun _ p' => (∃ cs', Rep p' cs' (bs.take size) ∧ Tight p' cs' (bs.take size))
      ∧ p'.nChunkSize = p.nChunkSize ∧ p'.nSpill = p.nSpill) (fun _ _ => False) p := by
  rw [memjrnlTruncate, wp_bind, wp_get, h.size]
  by_cases hlt : size < bs.length
  · rw [if_pos hlt]
    by_cases h0 : size = 0
    · subst h0
      rw [if_pos rfl, wp_bind, h.first]
      refine (memjrnlFreeChunks_wp h.nodup (fun j a _ ha => h.chain j a ha) (by
        have := h.length_le
        omega)).post ?_
      rintro _ _ rfl
      rw [wp_bind, wp_modify, wp_bind, wp_pure, wp_modify]
      refine ⟨⟨[], ⟨h.pos, List.nodup_nil, by simp, rfl, by simp, rfl, rfl, Nat.zero_le _, Or.inl rfl⟩, ?_⟩, rfl, rfl⟩
      simpa [Tight] using h.pos
    · have hwalk : wp (truncateChunk size size cs[0]? (0 * p.nChunkSize + p.nChunkSize)) _ _ p :=
        h.truncateChunk hle (by omega) (by omega)
      rw [Nat.zero_mul, Nat.zero_add] at hwalk
      rw [if_neg h0, wp_bind, h.first]
      refine hwalk.post ?_
      rintro _ p' ⟨rfl, m, hm, hsize, rfl⟩
      obtain ⟨a, ha⟩ := h.exists_chunk (i := m) (by omega)
      obtain ⟨c, hc, hnext⟩ := h.chain m a ha
      have hmlt := (List.getElem?_eq_some_iff.1 ha).1
      have hkept : a ∉ cs.drop (m + 1) := fun hmem => by
        obtain ⟨j, hj, haj⟩ := mem_drop_iff.1 hmem
        have := index_inj h.nodup ha haj
        omega
      rw [ha]
      dsimp only
      rw [if_pos Option.isSome_some, wp_bind, wp_deref hc, wp_bind, hnext]
      refine (memjrnlFreeChunks_wp h.nodup (fun j a _ ha => h.chain j a ha) (by
        have := h.length_le
        omega)).post ?_
      rintro _ _ rfl
      rw [wp_bind, wp_assign (by dsimp only; rw [if_neg hkept, hc]), wp_bind, wp_pure, wp_modify]
      refine ⟨⟨_, h.cut hm hsize hle ha hc, ?_⟩, rfl, rfl⟩
      rw [Tight, List.length_take, List.length_take, Nat.min_eq_left (by omega), Nat.min_eq_left hle, Nat.succ_mul]
      dsimp only
      omega
  · rw [if_neg hlt, wp_pure, List.take_of_length_le (by omega)]
    exact ⟨⟨cs, h, ht⟩, rfl, rfl⟩

end Truncate

end MemJournal

end Btreelite
