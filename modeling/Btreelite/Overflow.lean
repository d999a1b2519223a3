import Btreelite.Freelist

/-!
# Cells with overflow pages

Building a cell and its chain, freeing the chain, and reading or overwriting a value that is split
between the cell and the chain. An overflow page holds the page number of the next one and as
many bytes of the value as were written to it.
-/

namespace Btreelite

open Prog

/-- `bytes` copied over `l` from offset `off` on. -/
def splice (l : List UInt8) (off : Nat) (bytes : List UInt8) : List UInt8 :=
  l.take off ++ bytes ++ l.drop (off + bytes.length)

section Chains

variable (g : Geometry)

/-- `pBt->usableSize - 4`. -/
def ovflSize : Nat := g.usableSize - 4

/-- The rest of the loop of `fillInCell` once overflow page `prior` holds `data` and `rest` is
still to be stored; `fuel` bounds the pages, at least one byte going into each. -/
def fillOverflow : Nat → Nat → List UInt8 → List UInt8 → BtM Unit
  | 0, _, _, _ => return
  | fuel + 1, prior, data, rest =>
    if rest = [] then return
    else do
      let pgnoOvfl ← allocateBtreePage g prior
      setPage prior (.ovfl pgnoOvfl data)
      setPage pgnoOvfl (.ovfl 0 (rest.take (ovflSize g)))
      fillOverflow fuel pgnoOvfl (rest.take (ovflSize g)) (rest.drop (ovflSize g))

/-- `fillInCell` for a leaf: the cell and `*pnSize`. The padding of a short cell is zero here; the
code leaves what `pTmpSpace` held in its last byte. -/
def fillInCell (key value : List UInt8) : BtM (Cell × Nat) := do
  let nPayload := value.length
  let header := kvHeader key nPayload
  if nPayload ≤ g.maxLocal then
    let n := header.length + nPayload
    return (kvLeafCell g key nPayload value 0, if n < 4 then 4 else n)
  else
    let mn := g.minLocal
    let n := mn + (nPayload - mn) % (g.usableSize - 4)
    let n := if n > g.maxLocal then mn else n
    let rest := value.drop n
    let pgnoOvfl ← allocateBtreePage g 0
    setPage pgnoOvfl (.ovfl 0 (rest.take (ovflSize g)))
    fillOverflow g rest.length pgnoOvfl (rest.take (ovflSize g)) (rest.drop (ovflSize g))
    return (kvLeafCell g key nPayload (value.take n) pgnoOvfl, n + header.length + 4)

/-- `getOverflowPage`: the page that follows `ovfl`. -/
def getOverflowPage (ovfl : Nat) : BtM Nat := do
  match ← btreeGetPage g ovfl with
  | .ovfl next _ => return next
  | _ => throw .corrupt

/-- The loop of `clearCellOverflow` over the last `nOvfl` pages of a chain. -/
def clearOverflow : Nat → Nat → BtM Unit
  | 0, _ => return
  | nOvfl + 1, ovflPgno => do
    if ovflPgno < 2 ∨ ovflPgno > (← btreePagecount) then throw .corrupt
    else
      let iNext ← (if nOvfl = 0 then pure 0 else getOverflowPage g ovflPgno : BtM Nat)
      freePage2 g ovflPgno
      clearOverflow nOvfl iNext

/-- The number of overflow pages of a cell, as `clearCellOverflow` and `accessPayload` count. -/
def nOverflowPages (info : CellInfo) : Nat :=
  (info.nPayload - info.nLocal + ovflSize g - 1) / ovflSize g

def clearCellOverflow (pCell : Cell) (info : CellInfo) : BtM Unit :=
  clearOverflow g (nOverflowPages g info) (get4byte (pCell.drop (info.nSize - 4)))

/-- The macro `BTREE_CLEAR_CELL`. -/
def btreeClearCell (leaf : Bool) (pCell : Cell) : BtM CellInfo := do
  let info := xParseCell g leaf pCell
  if info.nLocal ≠ info.nPayload then
    clearCellOverflow g pCell info
    return info
  else return info

/-! ## Reading and writing a value -/

/-- A change of bytes inside a cell of a page at hand. -/
def putInCell (pgno ix off : Nat) (bytes : List UInt8) : BtM Unit := do
  match ← pageData pgno with
  | .node p => setPage pgno (.node { p with cells := p.cells.modify ix (splice · off bytes) })
  | _ => return

/-- The loop of `accessPayload` over the overflow chain. `src` holds the bytes still to be
written, `none` for a read; `aOverflow` is the cache of page numbers. -/
def accessOverflow : Nat → Nat → Nat → Nat → Nat → Option (List UInt8) → List Nat →
    BtM (List UInt8 × List Nat)
  | 0, _, _, _, _, _, _ => throw .corrupt
  | fuel + 1, nextPage, iIdx, offset, amt, src, aOverflow => do
    if nextPage = 0 then throw .corrupt
    else if nextPage > (← btreePagecount) then throw .corrupt
    else
      let aOverflow := aOverflow.set iIdx nextPage
      if offset ≥ ovflSize g then
        let cached := aOverflow.getD (iIdx + 1) 0
        let next ← (if cached ≠ 0 then pure cached else getOverflowPage g nextPage : BtM Nat)
        accessOverflow fuel next (iIdx + 1) (offset - ovflSize g) amt src aOverflow
      else
        let a := if amt + offset > ovflSize g then ovflSize g - offset else amt
        match ← btreeGetPage g nextPage with
        | .ovfl next data =>
          match src with
          | none =>
            let bytes := (data.drop offset).take a
            if amt - a = 0 then return (bytes, aOverflow)
            else
              let (more, aOverflow) ←
                accessOverflow fuel next (iIdx + 1) 0 (amt - a) none aOverflow
              return (bytes ++ more, aOverflow)
          | some buf =>
            sqlite3PagerWrite nextPage
            setPage nextPage (.ovfl next (splice data offset (buf.take a)))
            if amt - a = 0 then return ([], aOverflow)
            else accessOverflow fuel next (iIdx + 1) 0 (amt - a) (some (buf.drop a)) aOverflow
        | _ => throw .corrupt

/-- The part of `accessPayload` that works on the cell itself: a range of `a` bytes of its local
part. -/
def accessLocal (pgno ix : Nat) (pCell : Cell) (off a : Nat) : Option (List UInt8) →
    BtM (List UInt8)
  | none => return (pCell.drop off).take a
  | some buf => do
    sqlite3PagerWrite pgno
    putInCell pgno ix off (buf.take a)
    return []

/-- `aOverflow` when `BTCF_ValidOvfl` is set, else a new array of zeros. -/
def overflowCache (info : CellInfo) : Option (List Nat) → BtM (List Nat)
  | none => do
    tick
    return List.replicate (nOverflowPages g info) 0
  | some aOverflow => return aOverflow

/-- `accessPayload` on cell `ix` of page `pgno`, for a range inside the value. `cache` is
`aOverflow` when `BTCF_ValidOvfl` is set. Answers the bytes read and the cache. -/
def accessPayload (pgno ix : Nat) (pCell : Cell) (info : CellInfo) (offset amt : Nat)
    (src : Option (List UInt8)) (cache : Option (List Nat)) :
    BtM (List UInt8 × Option (List Nat)) := do
  let a := if offset < info.nLocal then min amt (info.nLocal - offset) else 0
  let bytes ← (if offset < info.nLocal then
    accessLocal pgno ix pCell (info.pPayload + offset) a src else pure [] : BtM (List UInt8))
  let src := src.map (·.drop a)
  let amt := amt - a
  let offset := offset - info.nLocal
  if amt = 0 then return (bytes, cache)
  else
    let nextPage := get4byte (pCell.drop (info.pPayload + info.nLocal))
    let aOverflow ← overflowCache g info cache
    let hit := aOverflow.getD (offset / ovflSize g) 0
    let fuel := (offset + amt) / ovflSize g + 2
    let (more, aOverflow) ← (if hit ≠ 0 then
        accessOverflow g fuel hit (offset / ovflSize g) (offset % ovflSize g) amt src aOverflow
      else accessOverflow g fuel nextPage 0 offset amt src aOverflow : BtM (List UInt8 × List Nat))
    return (bytes ++ more, some aOverflow)

/-! ## Overwriting a value by one of the same size -/

/-- `btreeOverwriteContent`: the page is made writeable only when the bytes differ. -/
def btreeOverwriteContent (pgno : Nat) (old new : List UInt8) (write : BtM Unit) : BtM Unit :=
  if old ≠ new then do
    sqlite3PagerWrite pgno
    write
  else return

/-- The loop of `btreeOverwriteOverflowCell` over the chain, `rest` being the bytes from
`iOffset` on. -/
def overwriteOverflow : Nat → Nat → List UInt8 → BtM Unit
  | 0, _, _ => return
  | fuel + 1, ovflPgno, rest => do
    match ← btreeGetPage g ovflPgno with
    | .ovfl next data =>
      let src := rest.take (ovflSize g)
      btreeOverwriteContent ovflPgno (data.take src.length) src
        (setPage ovflPgno (.ovfl next (splice data 0 src)))
      if ovflSize g < rest.length then overwriteOverflow fuel next (rest.drop (ovflSize g))
      else return
    | _ => throw .corrupt

/-- `btreeOverwriteCell` on cell `ix` of page `pgno`, parsed as `info`. -/
def btreeOverwriteCell (pgno ix : Nat) (pCell : Cell) (info : CellInfo) (value : List UInt8) :
    BtM Unit := do
  let src := value.take info.nLocal
  btreeOverwriteContent pgno ((pCell.drop info.pPayload).take info.nLocal) src
    (putInCell pgno ix info.pPayload src)
  if info.nLocal = value.length then return
  else
    overwriteOverflow g (value.length + 1) (get4byte (pCell.drop (info.pPayload + info.nLocal)))
      (value.drop info.nLocal)

end Chains

/-! ## Chains as lists of pages -/

/-- From page `t` on, the overflow pages `ps` hold `rest`, `n` bytes to a page. -/
def OvflChain (page : Nat → PageData) (n : Nat) : Nat → List Nat → List UInt8 → Prop
  | t, [], rest => t = 0 ∧ rest = []
  | t, p :: ps, rest => rest ≠ [] ∧ t = p ∧
      ∃ next, page p = .ovfl next (rest.take n) ∧ OvflChain page n next ps (rest.drop n)

/-- Cell `c` of a leaf stores `value` under `key`, the overflow pages being `ps`. -/
def LeafEntry (g : Geometry) (page : Nat → PageData) (c : Cell) (key value : List UInt8)
    (ps : List Nat) : Prop :=
  ∃ ovfl, LeafParts g key value.length (value.take (localSize g value.length)) ovfl
    ∧ c = kvLeafCell g key value.length (value.take (localSize g value.length)) ovfl
    ∧ OvflChain page (ovflSize g) ovfl ps (value.drop (localSize g value.length))

section ChainFacts

variable {g : Geometry} {page page' : Nat → PageData} {n : Nat}

theorem ovflSize_pos (g : Geometry) : 0 < ovflSize g := by
  have := g.usable_ge
  unfold ovflSize
  omega

theorem OvflChain.congr : ∀ {t : Nat} {ps : List Nat} {rest : List UInt8},
    (∀ p ∈ ps, page' p = page p) → OvflChain page n t ps rest → OvflChain page' n t ps rest
  | _, [], _, _, h => h
  | _, p :: _, _, hp, ⟨h0, h1, next, h2, h3⟩ =>
    ⟨h0, h1, next, (hp p List.mem_cons_self).trans h2,
      h3.congr fun q hq => hp q (List.mem_cons_of_mem _ hq)⟩

/-- A chain has as many pages as its bytes need. -/
theorem OvflChain.length_eq (hn : 0 < n) : ∀ {t : Nat} {ps : List Nat} {rest : List UInt8},
    OvflChain page n t ps rest → ps.length = (rest.length + n - 1) / n
  | _, [], _, ⟨_, h⟩ => by
    subst h
    exact (Nat.div_eq_of_lt (by simp; omega)).symm
  | _, p :: ps, rest, ⟨h0, _, next, _, h3⟩ => by
    have ih := h3.length_eq hn
    have hpos := List.length_pos_of_ne_nil h0
    rw [List.length_cons, ih, List.length_drop]
    rcases Nat.lt_or_ge rest.length n with hlt | hge
    · have h1 : (rest.length + n - 1) / n = 1 := by
        rw [Nat.div_eq_iff hn]
        omega
      rw [h1, Nat.sub_eq_zero_of_le hlt.le, Nat.div_eq_of_lt (by omega)]
    · have h1 : rest.length + n - 1 = (rest.length - n + n - 1) + n := by omega
      rw [h1, Nat.add_div_right _ hn]

theorem LeafEntry.congr {c : Cell} {key value : List UInt8} {ps : List Nat}
    (hp : ∀ p ∈ ps, page' p = page p) :
    LeafEntry g page c key value ps → LeafEntry g page' c key value ps
  | ⟨ovfl, h1, h2, h3⟩ => ⟨ovfl, h1, h2, h3.congr hp⟩

end ChainFacts

/-! ## Building and freeing -/

section BuildSpec

variable {g : Geometry} {d : Db} {R : List Nat}

/-- The chain gets a page for every `ovflSize` bytes that are left. -/
theorem fillOverflow_does : ∀ (fuel prior : Nat) (data rest : List UInt8) (d : Db) (R : List Nat),
    rest.length ≤ fuel → Owns g d (prior :: R) → d.page prior = .ovfl 0 data →
    Does (fillOverflow g fuel prior data rest) d
      (fun _ d' => ∃ next ps, Owns g d' (prior :: ps ++ R) ∧ d'.page prior = .ovfl next data
        ∧ OvflChain d'.page (ovflSize g) next ps rest ∧ ∀ q ∈ R, d'.page q = d.page q)
      (fun e _ => e.isFault = true)
  | 0, prior, data, rest, d, R, hf, hR, hp => by
    obtain rfl := List.length_eq_zero_iff.1 (Nat.le_zero.1 hf)
    exact Ensures.pure ⟨0, [], hR, hp, ⟨rfl, rfl⟩, fun _ _ => rfl⟩
  | fuel + 1, prior, data, rest, d, R, hf, hR, hp => by
    unfold fillOverflow
    refine Ensures.ite (fun h0 => ?_) fun h0 => ?_
    · subst h0
      exact Ensures.pure ⟨0, [], hR, hp, ⟨rfl, rfl⟩, fun _ _ => rfl⟩
    have hpos := ovflSize_pos g
    have hlen := List.length_pos_of_ne_nil h0
    refine (allocateBtreePage_does hR prior).bind ?_
    rintro p d1 ⟨hown, hkeep⟩
    refine (setPage_does _ _).bind ?_
    rintro _ _ rfl
    refine (setPage_does _ _).bind ?_
    rintro _ _ rfl
    have hpp : p ≠ prior := by
      rintro rfl
      exact (List.nodup_cons.1 hown.nodup).1 List.mem_cons_self
    have hown' := (hown.set (List.mem_cons_of_mem _ List.mem_cons_self) (.ovfl p data)).set
      List.mem_cons_self (.ovfl 0 (rest.take (ovflSize g)))
    refine (fillOverflow_does fuel p _ _ _ (prior :: R) (by rw [List.length_drop]; omega) hown'
      (Db.set_page_self _ _ _)).post ?_
    rintro _ d' ⟨next, ps, h1, h2, h3, h4⟩
    refine ⟨p, p :: ps, ?_, ?_, ⟨h0, rfl, next, h2, h3⟩, fun q hq => ?_⟩
    · exact h1.perm List.perm_middle
    · rw [h4 prior List.mem_cons_self, Db.set_page_of_ne _ _ _ hpp.symm, Db.set_page_self]
    · have hqp : q ≠ prior := by
        rintro rfl
        exact (List.nodup_cons.1 hR.nodup).1 hq
      have hqp' : q ≠ p := by
        rintro rfl
        exact (List.nodup_cons.1 hown.nodup).1 (List.mem_cons_of_mem _ hq)
      rw [h4 q (List.mem_cons_of_mem _ hq), Db.set_page_of_ne _ _ _ hqp',
        Db.set_page_of_ne _ _ _ hqp, hkeep q (List.mem_cons_of_mem _ hq)]

theorem leafParts_of_value {key value : List UInt8} {ovfl : Nat} (hk : key.length ≤ 255)
    (hv : value.length < 2 ^ 31) (ho : ovfl < 2 ^ 32) :
    LeafParts g key value.length (value.take (localSize g value.length)) ovfl where
  key_le := hk
  n_lt := hv
  loc_length := by
    rw [List.length_take]
    exact Nat.min_eq_left (localSize_le_self _)
  ovfl_lt := ho

/-- The cell `fillInCell` builds stores the value under the key, and the size it reports is the
length of the cell. The pages of the chain are new. -/
theorem fillInCell_does {key value : List UInt8} (h : Owns g d R) (hk : key.length ≤ 255)
    (hv : value.length < 2 ^ 31) :
    Does (fillInCell g key value) d
      (fun c d' => ∃ ps, LeafEntry g d'.page c.1 key value ps ∧ c.2 = c.1.length
        ∧ Owns g d' (ps ++ R) ∧ ∀ q ∈ R, d'.page q = d.page q)
      (fun e _ => e.isFault = true) := by
  unfold fillInCell
  refine Ensures.ite (fun hl => ?_) fun hl => ?_
  · have htake : value.take (localSize g value.length) = value := by
      rw [localSize, if_pos hl, List.take_length]
    have hparts : LeafParts g key value.length _ 0 := leafParts_of_value hk hv (by norm_num)
    refine Ensures.pure ⟨[], ⟨0, hparts, ?_, ?_⟩, ?_, h, fun _ _ => rfl⟩
    · rw [htake]
    · refine ⟨rfl, ?_⟩
      rw [localSize, if_pos hl, List.drop_length]
    · simp only [kvLeafCell, if_pos hl, List.length_append, List.length_replicate]
      split_ifs <;> omega
  · have hspill := localSize_spill (Nat.lt_of_not_le hl)
    have hlt := localSize_lt (Nat.lt_of_not_le hl)
    simp only [← hspill]
    refine (allocateBtreePage_does h 0).bind ?_
    rintro p d1 ⟨hown, hkeep⟩
    refine (setPage_does _ _).bind ?_
    rintro _ _ rfl
    have hlen : (value.drop (localSize g value.length)).length ≠ 0 := by
      rw [List.length_drop]
      omega
    refine (fillOverflow_does _ p _ _ _ R (by rw [List.length_drop (l := List.drop _ _)]; omega)
      (hown.set List.mem_cons_self _) (Db.set_page_self _ _ _)).bind ?_
    rintro _ d' ⟨next, ps, h1, h2, h3, h4⟩
    have hparts : LeafParts g key value.length _ p := leafParts_of_value hk hv
      (h1.lt_two_pow (List.mem_cons_self (l := ps ++ R)))
    refine Ensures.pure ⟨p :: ps, ⟨p, hparts, rfl, ?_, rfl, next, h2, h3⟩, ?_, h1, fun q hq => ?_⟩
    · exact List.ne_nil_of_length_pos (Nat.pos_of_ne_zero hlen)
    · simp only [kvLeafCell, if_neg hl, List.length_append, put4byte_length, hparts.loc_length]
      omega
    · rw [h4 q hq, Db.set_page_of_ne, hkeep q hq]
      rintro rfl
      exact (List.nodup_cons.1 hown.nodup).1 hq

/-- Freeing a chain page by page gives all its pages back. -/
theorem clearOverflow_does : ∀ (ps : List Nat) (t : Nat) (rest : List UInt8) (d : Db),
    Owns g d (ps ++ R) → OvflChain d.page (ovflSize g) t ps rest →
    Does (clearOverflow g ps.length t) d
      (fun _ d' => Owns g d' R ∧ ∀ q ∈ R, d'.page q = d.page q) (fun e _ => e.isFault = true)
  | [], _, _, d, hown, _ => Ensures.pure ⟨hown, fun _ _ => rfl⟩
  | p :: ps, _, rest, d, hown, ⟨h0, rfl, next, hp, hch⟩ => by
    have hin := hown.inRange (List.mem_cons_self (l := ps ++ R))
    have hnext : Does (if ps.length = 0 then pure 0 else getOverflowPage g p) d
        (fun t' d' => d = d' ∧ OvflChain d.page (ovflSize g) (if ps.length = 0 then 0 else t') ps
          (if ps.length = 0 then [] else rest.drop (ovflSize g)) ∧ (ps.length = 0 → t' = 0))
        (fun e _ => e.isFault = true) := by
      refine Ensures.ite (fun hl => Ensures.pure ⟨rfl, ?_, fun _ => rfl⟩) fun hl => ?_
      · rw [if_pos hl, if_pos hl, List.length_eq_zero_iff.1 hl]
        exact ⟨rfl, rfl⟩
      · refine (btreeGetPage_does hin.ne_zero hin.2.2 (by simp)).bind ?_
        rintro _ _ ⟨rfl, rfl⟩
        rw [hp]
        refine Ensures.pure ⟨rfl, ?_, fun h => absurd h hl⟩
        rw [if_neg hl, if_neg hl]
        exact hch
    unfold clearOverflow
    refine btreePagecount_does.bind ?_
    rintro _ _ ⟨rfl, rfl⟩
    rw [if_neg (by have h1 := hin.1; have h2 := hin.2.1; omega)]
    refine hnext.bind ?_
    rintro t' _ ⟨rfl, hch', ht'⟩
    refine (freePage2_does hown).bind ?_
    rintro _ d1 ⟨hown1, hkeep⟩
    have hch1 : OvflChain d1.page _ _ _ _ :=
      hch'.congr fun q hq => hkeep q (List.mem_append_left _ hq)
    have htt : (if ps.length = 0 then 0 else t') = t' := by
      split_ifs with hl
      · exact (ht' hl).symm
      · rfl
    rw [htt] at hch1
    refine (clearOverflow_does ps t' _ d1 hown1 hch1).post ?_
    rintro _ d' ⟨h1, h2⟩
    exact ⟨h1, fun q hq => (h2 q hq).trans (hkeep q (List.mem_append_right _ hq))⟩

/-- The pages freed are as many as the chain of the cell has. -/
theorem LeafEntry.nOverflowPages_eq {page : Nat → PageData} {c : Cell} {key value : List UInt8}
    {ps : List Nat} (h : LeafEntry g page c key value ps) :
    nOverflowPages g (kvParseCellLeaf g c) = ps.length := by
  obtain ⟨ovfl, hparts, rfl, hch⟩ := h
  obtain ⟨-, -, -, -, hn, hl⟩ := hparts.parse
  rw [nOverflowPages, hn, hl, hch.length_eq (ovflSize_pos g), List.length_drop]

theorem btreeClearCell_does {c : Cell} {key value : List UInt8} {ps : List Nat}
    (h : LeafEntry g d.page c key value ps) (hown : Owns g d (ps ++ R)) :
    Does (btreeClearCell g true c) d
      (fun info d' => info = kvParseCellLeaf g c ∧ Owns g d' R ∧ ∀ q ∈ R, d'.page q = d.page q)
      (fun e _ => e.isFault = true) := by
  have hnum := h.nOverflowPages_eq
  obtain ⟨ovfl, hparts, rfl, hch⟩ := h
  obtain ⟨-, -, -, -, hn, hl⟩ := hparts.parse
  unfold btreeClearCell
  simp only [xParseCell, if_true]
  rw [hn, hl]
  refine Ensures.ite (fun hne => ?_) fun heq => ?_
  · have hmax : g.maxLocal < value.length := by
      by_contra hle
      rw [localSize, if_pos (Nat.le_of_not_lt hle)] at hne
      exact hne rfl
    have hpage := hparts.ovfl_page hmax
    rw [← hparts.parse_length] at hpage
    rw [clearCellOverflow, hpage, hnum]
    refine (clearOverflow_does ps ovfl _ d hown hch).bind ?_
    rintro _ d' h'
    exact Ensures.pure ⟨rfl, h'⟩
  · have hdrop : value.drop (localSize g value.length) = [] := by
      rw [not_not.1 heq, List.drop_length]
    rw [hdrop] at hch
    cases ps with
    | nil => exact Ensures.pure ⟨rfl, hown, fun _ _ => rfl⟩
    | cons p ps => exact absurd rfl hch.1

end BuildSpec

/-! ## Splicing -/

section Splice

variable {l b : List UInt8} {off n : Nat}

theorem splice_getElem? (h : off + b.length ≤ l.length) (i : Nat) :
    (splice l off b)[i]? = if off ≤ i ∧ i < off + b.length then b[i - off]? else l[i]? := by
  unfold splice
  rw [List.append_assoc]
  have hlen : (l.take off).length = off := by
    rw [List.length_take]
    omega
  by_cases h1 : i < off
  · rw [List.getElem?_append_left (by omega), List.getElem?_take_of_lt h1, if_neg (by omega)]
  · rw [List.getElem?_append_right (by omega), hlen]
    by_cases h2 : i < off + b.length
    · rw [List.getElem?_append_left (by omega), if_pos (by omega)]
    · rw [List.getElem?_append_right (by omega), List.getElem?_drop, if_neg (by omega)]
      congr 1
      omega

theorem splice_length (h : off + b.length ≤ l.length) : (splice l off b).length = l.length := by
  simp only [splice, List.length_append, List.length_take, List.length_drop]
  omega

theorem take_splice_of_le (h : off + b.length ≤ l.length) (hn : n ≤ off) :
    (splice l off b).take n = l.take n := by
  refine List.ext_getElem? fun i => ?_
  by_cases hi : i < n
  · rw [List.getElem?_take_of_lt hi, List.getElem?_take_of_lt hi, splice_getElem? h,
      if_neg (by omega)]
  · rw [List.getElem?_eq_none (by simp; omega), List.getElem?_eq_none (by simp; omega)]

theorem drop_splice_of_le (h : off + b.length ≤ l.length) (hn : n ≤ off) :
    (splice l off b).drop n = splice (l.drop n) (off - n) b := by
  refine List.ext_getElem? fun i => ?_
  rw [List.getElem?_drop, splice_getElem? h,
    splice_getElem? (by rw [List.length_drop]; omega), List.getElem?_drop]
  by_cases hi : off ≤ n + i ∧ n + i < off + b.length
  · rw [if_pos hi, if_pos (by omega)]
    congr 1
    omega
  · rw [if_neg hi, if_neg (by omega)]

theorem take_splice_of_lt (h : off + b.length ≤ l.length) (hn : off ≤ n) :
    (splice l off b).take n = splice (l.take n) off (b.take (n - off)) := by
  refine List.ext_getElem? fun i => ?_
  have hlen : off + (b.take (n - off)).length ≤ (l.take n).length := by
    simp only [List.length_take]
    omega
  rw [splice_getElem? hlen]
  simp only [List.length_take] at hlen ⊢
  by_cases hi : i < n
  · rw [List.getElem?_take_of_lt hi, splice_getElem? h, List.getElem?_take_of_lt hi]
    by_cases hm : off ≤ i ∧ i < off + b.length
    · rw [if_pos hm, if_pos (by omega), List.getElem?_take_of_lt (by omega)]
    · rw [if_neg hm, if_neg (by omega)]
  · rw [List.getElem?_eq_none (by simp; omega), if_neg (by omega),
      List.getElem?_eq_none (by simp; omega)]

theorem drop_splice_of_lt (h : off + b.length ≤ l.length) (hn : off ≤ n)
    (hb : n ≤ off + b.length) :
    (splice l off b).drop n = splice (l.drop n) 0 (b.drop (n - off)) := by
  refine List.ext_getElem? fun i => ?_
  rw [List.getElem?_drop, splice_getElem? h,
    splice_getElem? (by simp only [List.length_drop]; omega), List.getElem?_drop,
    List.getElem?_drop, List.length_drop]
  by_cases hi : n + i < off + b.length
  · rw [if_pos (by omega), if_pos (by omega)]
    congr 1
    omega
  · rw [if_neg (by omega), if_neg (by omega)]

theorem drop_splice_of_ge (h : off + b.length ≤ l.length) (hb : off + b.length ≤ n) :
    (splice l off b).drop n = l.drop n := by
  refine List.ext_getElem? fun i => ?_
  rw [List.getElem?_drop, splice_getElem? h, if_neg (by omega), List.getElem?_drop]

theorem splice_self (hb : b.length = l.length) : splice l 0 b = b := by
  simp [splice, hb]

theorem splice_append_right (x y : List UInt8) :
    splice (x ++ y) (x.length + off) b = x ++ splice y off b := by
  have h1 : x.take (x.length + off) = x := List.take_of_length_le (by omega)
  have h2 : x.drop (x.length + (off + b.length)) = [] := List.drop_eq_nil_of_le (by omega)
  simp [splice, List.take_append, List.drop_append, Nat.add_assoc, h1, h2]

theorem splice_append_left {y z : List UInt8} (h : off + b.length ≤ y.length) :
    splice (y ++ z) off b = splice y off b ++ z := by
  simp only [splice, List.append_assoc]
  rw [List.take_append_of_le_length (by omega), List.drop_append_of_le_length h]

/-- Bytes written over the local part of a leaf cell. -/
theorem kvLeafCell_splice (g : Geometry) (key : Key) (m ovfl : Nat) {loc : List UInt8}
    (h : off + b.length ≤ loc.length) :
    splice (kvLeafCell g key m loc ovfl) ((kvHeader key m).length + off) b
      = kvLeafCell g key m (splice loc off b) ovfl := by
  unfold kvLeafCell
  split_ifs <;>
    simp only [splice_append_right, splice_append_left h, List.length_append, splice_length h]

end Splice

/-! ## Reading and writing through the cache -/

/-- Every entry of `aOverflow` is unknown or right, `all` being the pages of the chain. -/
def CacheOk (all aOverflow : List Nat) : Prop :=
  aOverflow.length = all.length ∧
    ∀ i, aOverflow.getD i 0 = 0 ∨ aOverflow.getD i 0 = all.getD i 0

section AccessSpec

variable {g : Geometry} {d : Db} {all : List Nat}

theorem CacheOk.set {a : List Nat} (h : CacheOk all a) {i : Nat} {p : Nat}
    (hp : all.getD i 0 = p) : CacheOk all (a.set i p) := by
  refine ⟨by rw [List.length_set]; exact h.1, fun j => ?_⟩
  by_cases hij : i = j
  · subst hij
    simp only [List.getD_eq_getElem?_getD, List.getElem?_set_self'] at hp ⊢
    rcases hi : a[i]? with _ | x
    · exact Or.inl rfl
    · exact Or.inr hp.symm
  · rw [List.getD_eq_getElem?_getD, List.getElem?_set_ne hij, ← List.getD_eq_getElem?_getD]
    exact h.2 j

theorem cacheOk_zeros (all : List Nat) : CacheOk all (List.replicate all.length 0) := by
  refine ⟨List.length_replicate, fun i => Or.inl ?_⟩
  rw [List.getD_eq_getElem?_getD]
  by_cases hi : i < all.length
  · rw [List.getElem?_replicate_of_lt hi]
    rfl
  · rw [List.getElem?_eq_none (by simpa using hi)]
    rfl

/-- The next page of the chain comes from the cache or from the page, and is the same. -/
theorem nextPage_does {i : Nat} {ps : List Nat} {rest : List UInt8} {a : List Nat} {p next : Nat}
    (hp : d.page p = .ovfl next rest) (hin : InRange g d.nPage p) (hnext : ps.head? = some next)
    (hps : all.drop (i + 1) = ps) (ha : CacheOk all a) :
    Does (if a.getD (i + 1) 0 ≠ 0 then pure (a.getD (i + 1) 0) else getOverflowPage g p) d
      (fun t d' => d = d' ∧ next = t) (fun e _ => e.isFault = true) := by
  refine Ensures.ite (fun hne => Ensures.pure ⟨rfl, ?_⟩) fun _ => ?_
  · rcases ha.2 (i + 1) with h | h
    · exact absurd h hne
    · have hget : all[i + 1]? = some next := by
        rw [← hnext, ← hps, List.head?_drop]
      rw [h, List.getD_eq_getElem?_getD, hget]
      rfl
  · refine (btreeGetPage_does hin.ne_zero hin.2.2 (by simp)).bind ?_
    rintro _ _ ⟨rfl, rfl⟩
    rw [hp]
    exact Ensures.pure ⟨rfl, rfl⟩

theorem OvflChain.head?_eq {page : Nat → PageData} {n t : Nat} {ps : List Nat}
    {rest : List UInt8} (h : OvflChain page n t ps rest) (hr : rest ≠ []) : ps.head? = some t := by
  cases ps with
  | nil => exact absurd h.2 hr
  | cons p ps => exact congrArg some h.2.1.symm

/-- Reading a range of the chain gives the bytes of the range. -/
theorem accessOverflow_read : ∀ (fuel : Nat) (ps : List Nat) (t : Nat) (rest : List UInt8)
    (i offset amt : Nat) (a : List Nat), OvflChain d.page (ovflSize g) t ps rest →
    (∀ p ∈ ps, InRange g d.nPage p) → 0 < amt → offset + amt ≤ rest.length →
    offset + amt ≤ fuel * ovflSize g → all.drop i = ps → CacheOk all a →
    Does (accessOverflow g fuel t i offset amt none a) d
      (fun r d' => d = d' ∧ r.1 = (rest.drop offset).take amt ∧ CacheOk all r.2)
      (fun e _ => e.isFault = true)
  | 0, _, _, _, _, _, _, _, _, _, hpos, _, hfuel, _, _ => by omega
  | fuel + 1, [], _, rest, _, _, _, _, hch, _, hpos, hle, _, _, _ => by
    have := hch.2
    subst this
    simp only [List.length_nil] at hle
    omega
  | fuel + 1, p :: ps, _, rest, i, offset, amt, a, ⟨hne, rfl, next, hp, hch⟩, hin, hpos, hle,
      hfuel, hall, ha => by
    have hpin := hin p List.mem_cons_self
    have hin' : ∀ q ∈ ps, InRange g d.nPage q := fun q hq => hin q (List.mem_cons_of_mem _ hq)
    have hall' : all.drop (i + 1) = ps := by
      rw [← List.tail_drop, hall, List.tail_cons]
    have ha' : CacheOk all (a.set i p) := by
      refine ha.set ?_
      rw [List.getD_eq_getElem?_getD, ← List.head?_drop, hall]
      rfl
    rw [Nat.succ_mul] at hfuel
    unfold accessOverflow
    rw [if_neg hpin.ne_zero]
    refine btreePagecount_does.bind ?_
    rintro _ _ ⟨rfl, rfl⟩
    refine Ensures.ite (fun hgt => absurd hpin.2.1 (Nat.not_le.2 hgt)) fun _ => ?_
    refine Ensures.ite (fun hskip => ?_) fun hskip => ?_
    · have hdrop : rest.drop (ovflSize g) ≠ [] := by
        refine List.ne_nil_of_length_pos ?_
        rw [List.length_drop]
        omega
      refine (nextPage_does hp hpin (hch.head?_eq hdrop) hall' ha').bind ?_
      rintro _ _ ⟨rfl, rfl⟩
      refine (accessOverflow_read fuel ps _ _ (i + 1) (offset - ovflSize g) amt _ hch hin' hpos
        (by rw [List.length_drop]; omega) (by omega) hall' ha').post ?_
      rintro r _ ⟨rfl, h1, h2⟩
      refine ⟨rfl, ?_, h2⟩
      rw [h1, List.drop_drop]
      congr 2
      omega
    · refine (btreeGetPage_does hpin.ne_zero hpin.2.2 (by simp)).bind ?_
      rintro _ _ ⟨rfl, rfl⟩
      rw [hp]
      have hlt : offset < ovflSize g := Nat.lt_of_not_le hskip
      by_cases hover : amt + offset > ovflSize g
      · simp only [if_pos hover]
        rw [if_neg (by omega)]
        refine (accessOverflow_read fuel ps _ _ (i + 1) 0 (amt - (ovflSize g - offset)) _ hch hin'
          (by omega) (by rw [List.length_drop]; omega) (by omega) hall' ha').bind ?_
        rintro r _ ⟨rfl, h1, h2⟩
        refine Ensures.pure ⟨rfl, ?_, h2⟩
        rw [h1, List.drop_zero]
        have h3 : ((rest.take (ovflSize g)).drop offset).take (ovflSize g - offset)
            = (rest.drop offset).take (ovflSize g - offset) := by
          rw [List.drop_take, List.take_take, Nat.min_self]
        have h4 : rest.drop (ovflSize g) = (rest.drop offset).drop (ovflSize g - offset) := by
          rw [List.drop_drop]
          congr 1
          omega
        rw [h3, h4, ← List.take_add, Nat.add_sub_cancel' (by omega)]
      · simp only [if_neg hover]
        rw [if_pos (by omega)]
        refine Ensures.pure ⟨rfl, ?_, ha'⟩
        rw [List.drop_take, List.take_take, Nat.min_eq_left (by omega)]

/-- Writing a range of the chain replaces the bytes of the range and touches no other page. -/
theorem accessOverflow_write : ∀ (fuel : Nat) (ps : List Nat) (t : Nat) (rest : List UInt8)
    (i offset : Nat) (buf : List UInt8) (a : List Nat) (d : Db),
    OvflChain d.page (ovflSize g) t ps rest → ps.Nodup →
    (∀ p ∈ ps, InRange g d.nPage p) → buf ≠ [] → offset + buf.length ≤ rest.length →
    offset + buf.length ≤ fuel * ovflSize g → all.drop i = ps → CacheOk all a →
    Does (accessOverflow g fuel t i offset buf.length (some buf) a) d
      (fun r d' => r.1 = [] ∧ CacheOk all r.2 ∧ d'.nPage = d.nPage
        ∧ OvflChain d'.page (ovflSize g) t ps (splice rest offset buf)
        ∧ ∀ q, q ∉ ps → d'.page q = d.page q)
      (fun e _ => e.isFault = true)
  | 0, _, _, _, _, _, buf, _, _, _, _, _, hpos, _, hfuel, _, _ => by
    have := List.length_pos_of_ne_nil hpos
    omega
  | fuel + 1, [], _, rest, _, _, buf, _, _, hch, _, _, hpos, hle, _, _, _ => by
    have := hch.2
    have := List.length_pos_of_ne_nil hpos
    subst rest
    simp only [List.length_nil] at hle
    omega
  | fuel + 1, p :: ps, _, rest, i, offset, buf, a, d, ⟨hne, rfl, next, hp, hch⟩, hnd, hin, hpos,
      hle, hfuel, hall, ha => by
    have hpin := hin p List.mem_cons_self
    have hbpos := List.length_pos_of_ne_nil hpos
    have hin' : ∀ q ∈ ps, InRange g d.nPage q := fun q hq => hin q (List.mem_cons_of_mem _ hq)
    have hpps : p ∉ ps := (List.nodup_cons.1 hnd).1
    have hall' : all.drop (i + 1) = ps := by
      rw [← List.tail_drop, hall, List.tail_cons]
    have ha' : CacheOk all (a.set i p) := by
      refine ha.set ?_
      rw [List.getD_eq_getElem?_getD, ← List.head?_drop, hall]
      rfl
    have hspl : splice rest offset buf ≠ [] := by
      refine List.ne_nil_of_length_pos ?_
      rw [splice_length hle]
      exact List.length_pos_of_ne_nil hne
    rw [Nat.succ_mul] at hfuel
    unfold accessOverflow
    rw [if_neg hpin.ne_zero]
    refine btreePagecount_does.bind ?_
    rintro _ _ ⟨rfl, rfl⟩
    refine Ensures.ite (fun hgt => absurd hpin.2.1 (Nat.not_le.2 hgt)) fun _ => ?_
    refine Ensures.ite (fun hskip => ?_) fun hskip => ?_
    · have hdrop : rest.drop (ovflSize g) ≠ [] := by
        refine List.ne_nil_of_length_pos ?_
        rw [List.length_drop]
        omega
      refine (nextPage_does hp hpin (hch.head?_eq hdrop) hall' ha').bind ?_
      rintro _ _ ⟨rfl, rfl⟩
      refine (accessOverflow_write fuel ps _ _ (i + 1) (offset - ovflSize g) buf _ d hch
        (List.nodup_cons.1 hnd).2 hin' hpos (by rw [List.length_drop]; omega) (by omega) hall'
        ha').post ?_
      rintro r d' ⟨h1, h2, h3, h4, h5⟩
      refine ⟨h1, h2, h3, ⟨hspl, rfl, next, ?_, ?_⟩, fun q hq => h5 q (by simp_all)⟩
      · rw [h5 p hpps, hp, take_splice_of_le hle hskip]
      · rw [drop_splice_of_le hle hskip]
        exact h4
    · refine (btreeGetPage_does hpin.ne_zero hpin.2.2 (by simp)).bind ?_
      rintro _ _ ⟨rfl, rfl⟩
      rw [hp]
      have hlt : offset < ovflSize g := Nat.lt_of_not_le hskip
      refine (sqlite3PagerWrite_does _ (by simp)).bind ?_
      rintro _ _ rfl
      refine (setPage_does _ _).bind ?_
      rintro _ _ rfl
      by_cases hover : buf.length + offset > ovflSize g
      · simp only [if_pos hover]
        rw [if_neg (by omega)]
        have hch1 : OvflChain (d.set p (.ovfl next
            (splice (rest.take (ovflSize g)) offset (buf.take (ovflSize g - offset))))).page
            (ovflSize g) next ps (rest.drop (ovflSize g)) :=
          hch.congr fun q hq => Db.set_page_of_ne _ _ _ (by rintro rfl; exact hpps hq)
        have hrec := accessOverflow_write fuel ps next _ (i + 1) 0
          (buf.drop (ovflSize g - offset)) (a.set i p) _ hch1 (List.nodup_cons.1 hnd).2 hin'
          (List.ne_nil_of_length_pos (by rw [List.length_drop]; omega))
          (by simp only [List.length_drop]; omega) (by rw [List.length_drop]; omega) hall' ha'
        rw [List.length_drop] at hrec
        refine hrec.post ?_
        rintro r d' ⟨h1, h2, h3, h4, h5⟩
        refine ⟨h1, h2, h3, ⟨hspl, rfl, next, ?_, ?_⟩, fun q hq => ?_⟩
        · rw [h5 p hpps, Db.set_page_self, take_splice_of_lt hle hlt.le]
        · rw [drop_splice_of_lt hle hlt.le (by omega)]
          exact h4
        · rw [h5 q (by simp_all), Db.set_page_of_ne]
          rintro rfl
          exact hq List.mem_cons_self
      · simp only [if_neg hover]
        rw [if_pos (by omega)]
        refine Ensures.pure ⟨rfl, ha', rfl, ⟨hspl, rfl, next, ?_, ?_⟩, fun q hq => ?_⟩
        · rw [Db.set_page_self, take_splice_of_lt hle hlt.le, List.take_length,
            List.take_of_length_le (show buf.length ≤ ovflSize g - offset by omega)]
        · rw [drop_splice_of_ge hle (by omega)]
          exact hch.congr fun q hq => Db.set_page_of_ne _ _ _ (by rintro rfl; exact hpps hq)
        · exact Db.set_page_of_ne _ _ _ (by rintro rfl; exact hq List.mem_cons_self)

/-- The part of a chain from page `i` on is a chain. -/
theorem OvflChain.drop {page : Nat → PageData} {n : Nat} : ∀ {t : Nat} {ps : List Nat}
    {rest : List UInt8} (i : Nat), OvflChain page n t ps rest → i < ps.length →
    OvflChain page n (ps.getD i 0) (ps.drop i) (rest.drop (i * n))
  | _, _ :: _, _, 0, h, _ => by
    obtain ⟨h0, rfl, h⟩ := h
    rw [Nat.zero_mul]
    exact ⟨h0, rfl, h⟩
  | _, _ :: ps, rest, i + 1, ⟨_, _, _, _, h⟩, hi => by
    have ih := h.drop i (Nat.lt_of_succ_lt_succ hi)
    rw [List.drop_drop, Nat.add_comm n] at ih
    rw [Nat.succ_mul]
    exact ih

/-- A chain whose pages from `i` on hold new bytes holds them from byte `i * n` on. -/
theorem OvflChain.replace_drop {page page' : Nat → PageData} {n : Nat} :
    ∀ {t : Nat} {ps : List Nat} {rest : List UInt8} (i : Nat) {off : Nat} {b : List UInt8},
      OvflChain page n t ps rest → i < ps.length → ps.Nodup →
      (∀ q, q ∉ ps.drop i → page' q = page q) → i * n ≤ off → off + b.length ≤ rest.length →
      OvflChain page' n (ps.getD i 0) (ps.drop i) (splice (rest.drop (i * n)) (off - i * n) b) →
      OvflChain page' n t ps (splice rest off b)
  | _, p :: ps, rest, 0, off, b, ⟨h0, h1, h⟩, _, _, _, _, _, h' => by
    subst h1
    simpa using h'
  | _, p :: ps, rest, i + 1, off, b, ⟨h0, h1, next, h2, h⟩, hi, hnd, hq, hoff, hle, h' => by
    have hnd' := List.nodup_cons.1 hnd
    rw [Nat.succ_mul] at hoff
    have ih : OvflChain page' n _ ps (splice (rest.drop n) (off - n) b) := h.replace_drop i
      (Nat.lt_of_succ_lt_succ hi) hnd'.2 hq (by omega) (by rw [List.length_drop]; omega) (by
        rw [List.drop_drop, Nat.sub_sub, Nat.add_comm n]
        rw [Nat.succ_mul] at h'
        exact h')
    refine ⟨?_, h1, next, ?_, ?_⟩
    · refine List.ne_nil_of_length_pos ?_
      rw [splice_length hle]
      exact List.length_pos_of_ne_nil h0
    · rw [hq p fun hp => hnd'.1 (List.mem_of_mem_drop hp), h2, take_splice_of_le hle (by omega)]
    · rw [drop_splice_of_le hle (by omega)]
      exact ih

variable {c : Cell} {key value : List UInt8} {ps : List Nat}

/-- The bytes of a stored cell from its payload on. -/
theorem LeafEntry.payload {page : Nat → PageData} (h : LeafEntry g page c key value ps) :
    ∃ ovfl tail, (kvParseCellLeaf g c).nLocal = localSize g value.length
      ∧ (kvParseCellLeaf g c).nPayload = value.length
      ∧ c.drop (kvParseCellLeaf g c).pPayload = value.take (localSize g value.length) ++ tail
      ∧ (localSize g value.length < value.length → get4byte tail = ovfl)
      ∧ OvflChain page (ovflSize g) ovfl ps (value.drop (localSize g value.length)) := by
  obtain ⟨ovfl, hparts, rfl, hch⟩ := h
  obtain ⟨-, -, -, hp, hn, hl⟩ := hparts.parse
  obtain ⟨tail, hc, ht, -⟩ := hparts.cell_eq
  refine ⟨ovfl, tail, hl, hn, ?_, fun hlt => ?_, hch⟩
  · rw [hp, hc, List.drop_left]
  · have hmax : g.maxLocal < value.length := by
      by_contra hle
      rw [localSize, if_pos (Nat.le_of_not_lt hle)] at hlt
      exact lt_irrefl _ hlt
    rw [ht hmax]
    simpa using get4byte_put4byte hparts.ovfl_lt []

theorem overflowCache_does (info : CellInfo) {cache : Option (List Nat)}
    (hnum : nOverflowPages g info = ps.length) (hc : ∀ a, cache = some a → CacheOk ps a) :
    Does (overflowCache g info cache) d (fun a d' => d = d' ∧ CacheOk ps a)
      (fun e _ => e.isFault = true) := by
  cases cache with
  | none =>
    refine Ensures.bind (tick_does (by simp)) ?_
    rintro _ _ rfl
    rw [hnum]
    exact Ensures.pure ⟨rfl, cacheOk_zeros ps⟩
  | some a => exact Ensures.pure ⟨rfl, hc a rfl⟩

/-- Reading any range of a value gives its bytes, whatever the cache knows. -/
theorem accessPayload_read (h : LeafEntry g d.page c key value ps)
    (hin : ∀ p ∈ ps, InRange g d.nPage p) {pgno ix offset amt : Nat}
    {cache : Option (List Nat)} (hc : ∀ a, cache = some a → CacheOk ps a)
    (hle : offset + amt ≤ value.length) :
    Does (accessPayload g pgno ix c (kvParseCellLeaf g c) offset amt none cache) d
      (fun r d' => d = d' ∧ r.1 = (value.drop offset).take amt ∧ ∀ a, r.2 = some a → CacheOk ps a)
      (fun e _ => e.isFault = true) := by
  have hnum := h.nOverflowPages_eq
  obtain ⟨ovfl, tail, hl, hn, hdrop, htail, hch⟩ := h.payload
  have hpos := ovflSize_pos g
  set L := localSize g value.length with hL
  have hLlen : (value.take L).length = L := by
    rw [List.length_take]
    exact Nat.min_eq_left (localSize_le_self _)
  set a := if offset < L then min amt (L - offset) else 0 with ha
  have hlocal : Does (if offset < (kvParseCellLeaf g c).nLocal then
      accessLocal pgno ix c ((kvParseCellLeaf g c).pPayload + offset) a none else pure []) d
      (fun bytes d' => d = d' ∧ bytes = (value.drop offset).take a)
      (fun e _ => e.isFault = true) := by
    rw [hl]
    refine Ensures.ite (fun hlt => Ensures.pure ⟨rfl, ?_⟩) fun hlt => Ensures.pure ⟨rfl, ?_⟩
    · rw [if_pos hlt] at ha
      rw [← List.drop_drop, hdrop, List.drop_append_of_le_length (by omega),
        List.take_append_of_le_length (by rw [List.length_drop]; omega), List.drop_take,
        List.take_take, Nat.min_eq_left (by omega)]
    · rw [ha, if_neg hlt, List.take_zero]
  unfold accessPayload
  rw [← hl] at ha
  simp only [← ha]
  refine hlocal.bind ?_
  rintro _ _ ⟨rfl, rfl⟩
  rw [hl] at ha
  rw [hl]
  refine Ensures.ite (fun h0 => Ensures.pure ⟨rfl, ?_, hc⟩) fun h0 => ?_
  · have haa : a = amt := by
      rw [ha] at h0 ⊢
      split_ifs at h0 ⊢ <;> omega
    rw [haa]
  have hspill : L < value.length := by
    split_ifs at ha <;> omega
  refine (overflowCache_does _ hnum hc).bind ?_
  rintro aOverflow _ ⟨rfl, hcache⟩
  have hnext : get4byte (c.drop ((kvParseCellLeaf g c).pPayload + L)) = ovfl := by
    rw [← List.drop_drop, hdrop, List.drop_left' hLlen]
    exact htail hspill
  have hrest : (value.drop L).length = value.length - L := List.length_drop
  have hrange : offset - L + (amt - a) ≤ (value.drop L).length := by
    rw [hrest]
    split_ifs at ha <;> omega
  have hbytes : (value.drop offset).take a ++ ((value.drop L).drop (offset - L)).take (amt - a)
      = (value.drop offset).take amt := by
    have haamt : a + (amt - a) = amt := by omega
    conv_rhs => rw [← haamt, List.take_add]
    rw [List.drop_drop, List.drop_drop]
    congr 3
    split_ifs at ha <;> omega
  have hfuel : offset - L + (amt - a) ≤
      ((offset - L + (amt - a)) / ovflSize g + 2) * ovflSize g := by
    have h1 := Nat.div_add_mod' (offset - L + (amt - a)) (ovflSize g)
    have h2 := Nat.mod_lt (offset - L + (amt - a)) hpos
    rw [Nat.add_mul]
    omega
  simp only [Option.map_none]
  refine Ensures.bind (R := fun r d' => d = d'
    ∧ r.1 = ((value.drop L).drop (offset - L)).take (amt - a) ∧ CacheOk ps r.2) ?_ ?_
  · refine Ensures.ite (fun hhit => ?_) fun _ => ?_
    · have hidx : (offset - L) / ovflSize g < ps.length := by
        rw [hch.length_eq hpos, Nat.div_lt_iff_lt_mul hpos]
        have h1 := Nat.div_add_mod' ((value.drop L).length + ovflSize g - 1) (ovflSize g)
        have h2 := Nat.mod_lt ((value.drop L).length + ovflSize g - 1) hpos
        omega
      have hps : aOverflow.getD ((offset - L) / ovflSize g) 0
          = ps.getD ((offset - L) / ovflSize g) 0 := (hcache.2 _).resolve_left hhit
      have hmod := Nat.div_add_mod (offset - L) (ovflSize g)
      rw [hps]
      refine (accessOverflow_read _ _ _ _ _ _ _ _ (hch.drop _ hidx)
        (fun p hp => hin p (List.mem_of_mem_drop hp)) (by omega) ?_ ?_
        (rfl : ps.drop _ = _) hcache).post ?_
      · rw [List.length_drop]
        have := Nat.mul_comm (ovflSize g) ((offset - L) / ovflSize g)
        omega
      · have := Nat.mod_le (offset - L) (ovflSize g)
        omega
      · rintro r _ ⟨rfl, h1, h2⟩
        refine ⟨rfl, ?_, h2⟩
        rw [h1, List.drop_drop, Nat.mul_comm, hmod]
    · rw [hnext]
      exact accessOverflow_read _ ps ovfl _ 0 _ _ _ hch hin (by omega) hrange hfuel
        (rfl : ps.drop 0 = ps) hcache
  · rintro r _ ⟨rfl, h1, h2⟩
    refine Ensures.pure ⟨rfl, ?_, ?_⟩
    · rw [h1, hbytes]
    · rintro _ ⟨rfl⟩
      exact h2

theorem set_eq_self {α : Type} {l : List α} {i : Nat} {x : α} (h : l[i]? = some x) :
    l.set i x = l := by
  refine List.ext_getElem? fun j => ?_
  by_cases hij : i = j
  · subst hij
    rw [List.getElem?_set_self', h]
    rfl
  · rw [List.getElem?_set_ne hij]

theorem putInCell_does {pgno ix off : Nat} {b : List UInt8} {p : MemPage} {E : Rc → Db → Prop}
    (hp : d.page pgno = .node p) (hc : p.cells[ix]? = some c) :
    Does (putInCell pgno ix off b) d
      (fun _ d' => d' = d.set pgno (.node { p with cells := p.cells.set ix (splice c off b) }))
      E := by
  refine (pageData_does pgno).bind ?_
  rintro _ _ ⟨rfl, rfl⟩
  rw [hp]
  have hm : p.cells.modify ix (splice · off b) = p.cells.set ix (splice c off b) := by
    rw [List.modify_eq_set_getElem?, hc]
    rfl
  simp only [hm]
  exact setPage_does _ _

/-- A page whose cell `ix` has been rewritten to `c'`; only it and the pages `ps` changed. -/
def CellRewritten (d d' : Db) (pgno ix : Nat) (p : MemPage) (c' : Cell) (ps : List Nat) : Prop :=
  d'.nPage = d.nPage ∧ d'.page pgno = .node { p with cells := p.cells.set ix c' }
    ∧ ∀ q, q ≠ pgno → q ∉ ps → d'.page q = d.page q

/-- Writing a range of a value replaces its bytes, in the cell and in the chain. -/
theorem accessPayload_write (h : LeafEntry g d.page c key value ps) {pgno ix : Nat} {p : MemPage}
    (hp : d.page pgno = .node p) (hc : p.cells[ix]? = some c) (hps : pgno ∉ ps) (hnd : ps.Nodup)
    (hin : ∀ p ∈ ps, InRange g d.nPage p) {offset : Nat} {buf : List UInt8}
    {cache : Option (List Nat)} (hcache : ∀ a, cache = some a → CacheOk ps a)
    (hle : offset + buf.length ≤ value.length) :
    Does (accessPayload g pgno ix c (kvParseCellLeaf g c) offset buf.length (some buf) cache) d
      (fun r d' => (∃ c', CellRewritten d d' pgno ix p c' ps ∧ c'.length = c.length
        ∧ LeafEntry g d'.page c' key (splice value offset buf) ps)
        ∧ ∀ a, r.2 = some a → CacheOk ps a)
      (fun e _ => e.isFault = true) := by
  have hnum := h.nOverflowPages_eq
  obtain ⟨ovfl, hparts, rfl, hch⟩ := h
  obtain ⟨-, -, -, hpay, hn, hl⟩ := hparts.parse
  obtain ⟨tail, hceq, htail, -⟩ := hparts.cell_eq
  have hpos := ovflSize_pos g
  set L := localSize g value.length with hL
  have hLlen : (value.take L).length = L := hparts.loc_length
  have hLle : L ≤ value.length := localSize_le_self _
  set a := if offset < L then min buf.length (L - offset) else 0 with ha
  have hslen : (splice value offset buf).length = value.length := splice_length hle
  -- the local part and the rest of the new value
  have hloc : (splice value offset buf).take L
      = if offset < L then splice (value.take L) offset (buf.take a) else value.take L := by
    split_ifs with hlt
    · rw [take_splice_of_lt hle hlt.le, ha, if_pos hlt]
      congr 1
      rw [Nat.min_comm, ← List.take_take, List.take_length]
    · exact take_splice_of_le hle (by omega)
  have hrest : (splice value offset buf).drop L
      = splice (value.drop L) (offset - L) (buf.drop a) := by
    by_cases hlt : offset < L
    · rw [if_pos hlt] at ha
      rw [Nat.sub_eq_zero_of_le hlt.le]
      by_cases hover : L ≤ offset + buf.length
      · rw [drop_splice_of_lt hle hlt.le hover, ha, Nat.min_eq_right (by omega)]
      · rw [drop_splice_of_ge hle (by omega), 
          List.drop_eq_nil_of_le (show buf.length ≤ a by omega)]
        simp [splice]
    · rw [if_neg hlt] at ha
      rw [drop_splice_of_le hle (by omega), ha, List.drop_zero]
  have hblen : (buf.drop a).length = buf.length - a := List.length_drop
  -- the cell once its local part is written
  set c' := kvLeafCell g key value.length ((splice value offset buf).take L) ovfl with hc'
  have hsplen : (splice value offset buf).take L = (splice value offset buf).take
      (localSize g (splice value offset buf).length) := by rw [hslen]
  have hentry : ∀ page, OvflChain page (ovflSize g) ovfl ps ((splice value offset buf).drop L) →
      LeafEntry g page c' key (splice value offset buf) ps := by
    intro page hchain
    refine ⟨ovfl, leafParts_of_value hparts.key_le (by rw [hslen]; exact hparts.n_lt)
      hparts.ovfl_lt, ?_, ?_⟩
    · rw [hc', hslen]
    · rw [hslen]
      exact hchain
  have hclen : c'.length = (kvLeafCell g key value.length (value.take L) ovfl).length := by
    have h1 : ((splice value offset buf).take L).length = (value.take L).length := by
      rw [List.length_take, List.length_take, hslen]
    rw [hc']
    unfold kvLeafCell
    split_ifs <;> simp only [List.length_append, h1]
  have hlocal : Does (if offset < (kvParseCellLeaf g (kvLeafCell g key value.length
      (value.take L) ovfl)).nLocal then accessLocal pgno ix (kvLeafCell g key value.length
        (value.take L) ovfl) ((kvParseCellLeaf g (kvLeafCell g key value.length (value.take L)
          ovfl)).pPayload + offset) a (some buf) else pure []) d
      (fun _ d' => CellRewritten d d' pgno ix p c' []) (fun e _ => e.isFault = true) := by
    rw [hl, hpay]
    refine Ensures.ite (fun hlt => ?_) fun hlt => Ensures.pure ⟨rfl, ?_, fun _ _ _ => rfl⟩
    · refine (sqlite3PagerWrite_does _ (by simp)).bind ?_
      rintro _ _ rfl
      refine (putInCell_does hp hc).bind ?_
      rintro _ _ rfl
      rw [if_pos hlt] at ha hloc
      refine Ensures.pure ⟨rfl, ?_, fun q hq _ => Db.set_page_of_ne _ _ _ hq⟩
      rw [Db.set_page_self, kvLeafCell_splice, hc', hloc]
      rw [hLlen, List.length_take]
      omega
    · rw [hp, hc', hloc, if_neg hlt, set_eq_self hc]
  unfold accessPayload
  rw [← hl] at ha
  simp only [← ha]
  refine hlocal.bind ?_
  rintro _ d1 ⟨hn1, hp1, hq1⟩
  rw [hl] at ha
  rw [hl]
  have hkeep : ∀ q ∈ ps, d1.page q = d.page q := fun q hq =>
    hq1 q (by rintro rfl; exact hps hq) (List.not_mem_nil)
  have hch1 := hch.congr hkeep
  have hin1 : ∀ p ∈ ps, InRange g d1.nPage p := by rw [hn1]; exact hin
  refine Ensures.ite (fun h0 => Ensures.pure ⟨⟨c', ⟨hn1, hp1, fun q hq _ => hq1 q hq (by simp)⟩,
    hclen, hentry _ ?_⟩, hcache⟩) fun h0 => ?_
  · have hnil : buf.drop a = [] := List.drop_eq_nil_of_le (by omega)
    rw [hrest, hnil]
    have : splice (value.drop L) (offset - L) [] = value.drop L := by simp [splice]
    rw [this]
    exact hch1
  have hspill : L < value.length := by
    split_ifs at ha <;> omega
  refine (overflowCache_does _ hnum hcache).bind ?_
  rintro aOverflow _ ⟨rfl, hco⟩
  have hnext : get4byte ((kvLeafCell g key value.length (value.take L) ovfl).drop
      ((kvHeader key value.length).length + L)) = ovfl := by
    have hmax : g.maxLocal < value.length := by
      by_contra hmax
      rw [hL, localSize, if_pos (Nat.le_of_not_lt hmax)] at hspill
      exact lt_irrefl _ hspill
    rw [hceq, ← List.drop_drop, List.drop_left, List.drop_left' hLlen, htail hmax]
    simpa using get4byte_put4byte hparts.ovfl_lt []
  have hvlen : (value.drop L).length = value.length - L := List.length_drop
  have hne : buf.drop a ≠ [] := List.ne_nil_of_length_pos (by omega)
  have hrange : offset - L + (buf.drop a).length ≤ (value.drop L).length := by
    rw [hvlen, hblen]
    split_ifs at ha <;> omega
  have hfuel : offset - L + (buf.drop a).length ≤
      ((offset - L + (buf.drop a).length) / ovflSize g + 2) * ovflSize g := by
    have h1 := Nat.div_add_mod' (offset - L + (buf.drop a).length) (ovflSize g)
    have h2 := Nat.mod_lt (offset - L + (buf.drop a).length) hpos
    rw [Nat.add_mul]
    omega
  simp only [Option.map_some, ← hblen]
  refine Ensures.bind (R := fun r d' => CacheOk ps r.2 ∧ d'.nPage = d1.nPage
    ∧ OvflChain d'.page (ovflSize g) ovfl ps (splice (value.drop L) (offset - L) (buf.drop a))
    ∧ ∀ q, q ∉ ps → d'.page q = d1.page q) ?_ ?_
  · refine Ensures.ite (fun hhit => ?_) fun _ => ?_
    · have hidx : (offset - L) / ovflSize g < ps.length := by
        rw [hch.length_eq hpos, Nat.div_lt_iff_lt_mul hpos]
        have h1 := Nat.div_add_mod' ((value.drop L).length + ovflSize g - 1) (ovflSize g)
        have h2 := Nat.mod_lt ((value.drop L).length + ovflSize g - 1) hpos
        omega
      have hpseq : aOverflow.getD ((offset - L) / ovflSize g) 0
          = ps.getD ((offset - L) / ovflSize g) 0 := (hco.2 _).resolve_left hhit
      have hmod := Nat.div_add_mod' (offset - L) (ovflSize g)
      rw [hpseq]
      refine (accessOverflow_write _ _ _ _ _ _ _ _ d1 (hch1.drop _ hidx)
        (hnd.sublist (List.drop_sublist _ _)) (fun p hp => hin1 p (List.mem_of_mem_drop hp)) hne
        ?_ ?_ (rfl : ps.drop _ = _) hco).post ?_
      · rw [List.length_drop (l := value.drop L)]
        omega
      · have := Nat.mod_le (offset - L) (ovflSize g)
        omega
      · rintro r d' ⟨-, h2, h3, h4, h5⟩
        refine ⟨h2, h3, ?_, fun q hq => h5 q fun hm => hq (List.mem_of_mem_drop hm)⟩
        refine hch1.replace_drop _ hidx hnd h5 (Nat.div_mul_le_self _ _) hrange ?_
        have : offset - L - (offset - L) / ovflSize g * ovflSize g
            = (offset - L) % ovflSize g := by omega
        rw [this]
        exact h4
    · rw [hpay, hnext]
      refine (accessOverflow_write _ ps ovfl _ 0 _ _ _ d1 hch1 hnd hin1 hne hrange
        hfuel (rfl : ps.drop 0 = ps) hco).post ?_
      rintro r d' ⟨-, h2, h3, h4, h5⟩
      exact ⟨h2, h3, h4, h5⟩
  · rintro r d' ⟨h2, h3, h4, h5⟩
    refine Ensures.pure ⟨⟨c', ⟨h3.trans hn1, ?_, fun q hq hqp => ?_⟩, hclen, hentry _ ?_⟩, ?_⟩
    · rw [h5 pgno hps, hp1]
    · rw [h5 q hqp, hq1 q hq (by simp)]
    · rw [hrest]
      exact h4
    · rintro _ ⟨rfl⟩
      exact h2

/-! ## Overwriting in place -/

theorem btreeOverwriteContent_does {pgno : Nat} {old new : List UInt8} {write : BtM Unit}
    {Q : Db → Prop} (hw : Does write d (fun _ d' => Q d') (fun e _ => e.isFault = true))
    (heq : old = new → Q d) :
    Does (btreeOverwriteContent pgno old new write) d (fun _ d' => Q d')
      (fun e _ => e.isFault = true) := by
  refine Ensures.ite (fun _ => ?_) fun h => Ensures.pure (heq (not_not.1 h))
  refine (sqlite3PagerWrite_does _ (by simp)).bind ?_
  rintro _ _ rfl
  exact hw

theorem overwriteOverflow_does : ∀ (fuel : Nat) (ps : List Nat) (t : Nat) (rest new : List UInt8)
    (d : Db), OvflChain d.page (ovflSize g) t ps rest → ps.Nodup →
    (∀ p ∈ ps, InRange g d.nPage p) → rest ≠ [] → new.length = rest.length → rest.length < fuel →
    Does (overwriteOverflow g fuel t new) d
      (fun _ d' => d'.nPage = d.nPage ∧ OvflChain d'.page (ovflSize g) t ps new
        ∧ ∀ q, q ∉ ps → d'.page q = d.page q)
      (fun e _ => e.isFault = true)
  | 0, _, _, _, _, _, _, _, _, _, _, hf => by omega
  | _ + 1, [], _, _, _, _, hch, _, _, hne, _, _ => absurd hch.2 hne
  | fuel + 1, p :: ps, _, rest, new, d, ⟨h0, rfl, next, hp, hch⟩, hnd, hin, _, hlen, hf => by
    have hpos := ovflSize_pos g
    have hpin := hin p List.mem_cons_self
    have hnd' := List.nodup_cons.1 hnd
    have hrpos := List.length_pos_of_ne_nil h0
    have hnew : new ≠ [] := List.ne_nil_of_length_pos (by omega)
    have htl : (new.take (ovflSize g)).length = (rest.take (ovflSize g)).length := by
      rw [List.length_take, List.length_take, hlen]
    unfold overwriteOverflow
    refine (btreeGetPage_does hpin.ne_zero hpin.2.2 (by simp)).bind ?_
    rintro _ _ ⟨rfl, rfl⟩
    rw [hp]
    simp only []
    refine Ensures.bind (R := fun _ d' => d'.nPage = d.nPage
      ∧ d'.page p = .ovfl next (new.take (ovflSize g)) ∧ ∀ q, q ≠ p → d'.page q = d.page q)
      (btreeOverwriteContent_does ((setPage_does _ _).post ?_) fun heq => ?_) ?_
    · rintro _ _ rfl
      refine ⟨rfl, ?_, fun q hq => Db.set_page_of_ne _ _ _ hq⟩
      rw [Db.set_page_self, splice_self htl]
    · refine ⟨rfl, ?_, fun _ _ => rfl⟩
      rw [htl, List.take_length] at heq
      rw [hp, heq]
    rintro _ d1 ⟨hn1, hp1, hq1⟩
    have hch1 : OvflChain d1.page (ovflSize g) next ps (rest.drop (ovflSize g)) :=
      hch.congr fun q hq => hq1 q (by rintro rfl; exact hnd'.1 hq)
    refine Ensures.ite (fun hlt => ?_) fun hge => Ensures.pure ?_
    · refine (overwriteOverflow_does fuel ps next _ (new.drop (ovflSize g)) d1 hch1 hnd'.2
        (fun q hq => by rw [hn1]; exact hin q (List.mem_cons_of_mem _ hq))
        (List.ne_nil_of_length_pos (by rw [List.length_drop]; omega))
        (by rw [List.length_drop, List.length_drop, hlen])
        (by rw [List.length_drop]; omega)).post ?_
      rintro _ d' ⟨h1, h2, h3⟩
      refine ⟨h1.trans hn1, ⟨hnew, rfl, next, ?_, h2⟩, fun q hq => ?_⟩
      · rw [h3 p hnd'.1, hp1]
      · rw [h3 q fun h => hq (List.mem_cons_of_mem _ h), hq1 q (by rintro rfl; exact hq (by simp))]
    · have hnil : rest.drop (ovflSize g) = [] := List.drop_eq_nil_of_le (by omega)
      have hnil' : new.drop (ovflSize g) = [] := List.drop_eq_nil_of_le (by omega)
      refine ⟨hn1, ⟨hnew, rfl, next, hp1, ?_⟩, fun q hq => hq1 q (by rintro rfl; exact hq (by simp))⟩
      rw [hnil']
      rw [hnil] at hch1
      exact hch1

/-- Overwriting a cell by a value of the same size stores that value. -/
theorem btreeOverwriteCell_does (h : LeafEntry g d.page c key value ps) {pgno ix : Nat}
    {p : MemPage} (hp : d.page pgno = .node p) (hc : p.cells[ix]? = some c) (hps : pgno ∉ ps)
    (hnd : ps.Nodup) (hin : ∀ p ∈ ps, InRange g d.nPage p) {new : List UInt8}
    (hlen : new.length = value.length) :
    Does (btreeOverwriteCell g pgno ix c (kvParseCellLeaf g c) new) d
      (fun _ d' => ∃ c', CellRewritten d d' pgno ix p c' ps ∧ c'.length = c.length
        ∧ LeafEntry g d'.page c' key new ps)
      (fun e _ => e.isFault = true) := by
  obtain ⟨ovfl, hparts, rfl, hch⟩ := h
  obtain ⟨-, -, -, hpay, hn, hl⟩ := hparts.parse
  obtain ⟨tail, hceq, htail, -⟩ := hparts.cell_eq
  set L := localSize g value.length with hL
  have hLlen : (value.take L).length = L := hparts.loc_length
  have hLle : L ≤ value.length := localSize_le_self _
  have hnlen : (new.take L).length = (value.take L).length := by
    rw [List.length_take, List.length_take, hlen]
  set c' := kvLeafCell g key value.length (new.take L) ovfl with hc'
  have hentry : ∀ page, OvflChain page (ovflSize g) ovfl ps (new.drop L) →
      LeafEntry g page c' key new ps := by
    intro page hchain
    refine ⟨ovfl, leafParts_of_value hparts.key_le (by rw [hlen]; exact hparts.n_lt)
      hparts.ovfl_lt, ?_, ?_⟩
    · rw [hc', hlen]
    · rw [hlen]
      exact hchain
  have hclen : c'.length = (kvLeafCell g key value.length (value.take L) ovfl).length := by
    rw [hc']
    unfold kvLeafCell
    split_ifs <;> simp only [List.length_append, hnlen]
  unfold btreeOverwriteCell
  simp only [hl, hpay]
  refine Ensures.bind (R := fun _ d' => CellRewritten d d' pgno ix p c' [])
    (btreeOverwriteContent_does ((putInCell_does hp hc).post ?_) fun heq => ?_) ?_
  · rintro _ _ rfl
    refine ⟨rfl, ?_, fun q hq _ => Db.set_page_of_ne _ _ _ hq⟩
    have hs := @kvLeafCell_splice (new.take L) 0 g key value.length ovfl (value.take L) (by omega)
    rw [Nat.add_zero, splice_self hnlen] at hs
    rw [Db.set_page_self, hs]
  · refine ⟨rfl, ?_, fun _ _ _ => rfl⟩
    rw [hceq, List.drop_left, List.take_left' hLlen] at heq
    rw [hp, hc', ← heq, set_eq_self hc]
  rintro _ d1 ⟨hn1, hp1, hq1⟩
  have hkeep : ∀ q ∈ ps, d1.page q = d.page q := fun q hq =>
    hq1 q (by rintro rfl; exact hps hq) (List.not_mem_nil)
  refine Ensures.ite (fun hall => Ensures.pure ⟨c', ⟨hn1, hp1, fun q hq _ => hq1 q hq (by simp)⟩,
    hclen, hentry _ ?_⟩) fun hne => ?_
  · have h1 : value.drop L = [] := List.drop_eq_nil_of_le (by omega)
    have h2 : new.drop L = [] := List.drop_eq_nil_of_le (by omega)
    rw [h1] at hch
    rw [h2]
    exact hch.congr hkeep
  · have hmax : g.maxLocal < value.length := by
      by_contra hmax
      rw [hL, localSize, if_pos (Nat.le_of_not_lt hmax)] at hne
      exact hne hlen.symm
    have hnext : get4byte ((kvLeafCell g key value.length (value.take L) ovfl).drop
        ((kvHeader key value.length).length + L)) = ovfl := by
      rw [hceq, ← List.drop_drop, List.drop_left, List.drop_left' hLlen, htail hmax]
      simpa using get4byte_put4byte hparts.ovfl_lt []
    rw [hnext]
    have hlt := localSize_lt hmax
    refine (overwriteOverflow_does _ ps ovfl (value.drop L) (new.drop L) d1 (hch.congr hkeep) hnd
      (by rw [hn1]; exact hin) (List.ne_nil_of_length_pos (by rw [List.length_drop]; omega))
      (by rw [List.length_drop, List.length_drop, hlen])
      (by rw [List.length_drop]; omega)).post ?_
    rintro _ d' ⟨h3, h4, h5⟩
    refine ⟨c', ⟨h3.trans hn1, ?_, fun q hq hqp => ?_⟩, hclen, hentry _ h4⟩
    · rw [h5 pgno hps, hp1]
    · rw [h5 q hqp, hq1 q hq (by simp)]

end AccessSpec

/-! ## The round trip of a leaf cell -/

/-- A value stored under a key comes back: the cell `fillInCell` builds is parsed to the key and
the two lengths whatever follows it on its page, both ways of sizing it agree with the size
reported, reading the whole value returns its bytes, and freeing the chain gives back exactly the
pages that were allocated for it. -/
theorem fillInCell_round_trip {g : Geometry} {d : Db} {R : List Nat} (h : Owns g d R)
    {key value : List UInt8} (hk : key.length ≤ 255) (hv : value.length ≤ 2 ^ 31 - 1) :
    Does (fillInCell g key value) d
      (fun c d' =>
        (∀ tail, (kvParseCellLeaf g (c.1 ++ tail)).nKeyLen = key.length
          ∧ (kvParseCellLeaf g (c.1 ++ tail)).nPayload = value.length
          ∧ (kvParseCellLeaf g (c.1 ++ tail)).keyOf (c.1 ++ tail) = key
          ∧ (kvParseCellLeaf g (c.1 ++ tail)).nSize = c.2
          ∧ kvCellSizeLeaf g (c.1 ++ tail) = c.2)
        ∧ c.1.length = c.2
        ∧ (∀ pgno ix, Does (accessPayload g pgno ix c.1 (kvParseCellLeaf g c.1) 0 value.length none
            none) d' (fun r d'' => d' = d'' ∧ r.1 = value) (fun e _ => e.isFault = true))
        ∧ ∃ ps, Owns g d' (ps ++ R) ∧ nOverflowPages g (kvParseCellLeaf g c.1) = ps.length
          ∧ (∃ t, OvflChain d'.page (ovflSize g) t ps (value.drop (localSize g value.length)))
          ∧ Does (btreeClearCell g true c.1) d' (fun _ d'' => Owns g d'' R)
              (fun e _ => e.isFault = true))
      (fun e _ => e.isFault = true) := by
  refine (fillInCell_does h hk (by omega)).post ?_
  rintro ⟨c, n⟩ d' ⟨ps, hentry, hsize, hown, -⟩
  simp only [] at hentry hsize
  subst hsize
  have hin : ∀ p ∈ ps, InRange g d'.nPage p := fun p hp => hown.inRange (List.mem_append_left _ hp)
  have hread := fun pgno ix =>
    @accessPayload_read _ _ _ _ _ _ hentry hin pgno ix 0 value.length none (by simp) (by omega)
  have hclear := btreeClearCell_does hentry hown
  refine ⟨?_, rfl, fun pgno ix => (hread pgno ix).post ?_, ps, hown, hentry.nOverflowPages_eq, ?_,
    hclear.post fun _ _ h => h.2.1⟩
  · obtain ⟨ovfl, hparts, rfl, -⟩ := hentry
    intro tail
    obtain ⟨h1, -, h2, -, h3, -⟩ := hparts.parse
    obtain ⟨r, hr, -, -⟩ := hparts.cell_eq
    have happ := hparts.parse_append tail
    refine ⟨by rw [happ, h1], by rw [happ, h3], ?_, by rw [happ, hparts.parse_length], ?_⟩
    · have hkey := hparts.keyOf
      rw [CellInfo.keyOf, h1, h2] at hkey
      rw [happ, CellInfo.keyOf, h1, h2, List.drop_append_of_le_length, List.take_append_of_le_length,
        hkey]
      · rw [hr, List.length_drop, List.length_append]
        simp only [kvHeader, List.length_append]
        omega
      · rw [hr, List.length_append]
        omega
    · rw [hr, List.append_assoc, kvCellSizeLeaf_header hparts.key_le hparts.n_lt,
        ← List.append_assoc, ← hr, happ, hparts.parse_length]
  · rintro r _ ⟨rfl, h1, -⟩
    refine ⟨rfl, ?_⟩
    rw [h1, List.drop_zero, List.take_length]
  · obtain ⟨ovfl, -, -, hch⟩ := hentry
    exact ⟨ovfl, hch⟩

/-- A value of 300 bytes spills from a page of 512 and is read back whole. -/
theorem fillInCell_round_trip_spill :
    Does (fillInCell smallPages [1] (List.replicate 300 7)) newDb
      (fun c d' => ∀ pgno ix, Does (accessPayload smallPages pgno ix c.1
        (kvParseCellLeaf smallPages c.1) 0 300 none none) d'
        (fun r _ => r.1 = List.replicate 300 7) (fun e _ => e.isFault = true))
      (fun e _ => e.isFault = true) := by
  refine (fillInCell_round_trip (owns_newDb smallPages) (show ([1] : Key).length ≤ 255 by decide) (by
    rw [List.length_replicate]
    omega)).post ?_
  rintro c d' ⟨-, -, hread, -⟩ pgno ix
  have h := hread pgno ix
  rw [List.length_replicate] at h
  exact h.post fun _ _ h => h.2

end Btreelite
